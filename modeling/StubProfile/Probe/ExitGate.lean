import StubProfile.Lib.Machine
import StubProfile.Probe.Cases

/-!
# The gate of the counting functions while the library is shut down

`probe_exit` sets the global state to `EXIT` to tell all threads "don't enter the probe anymore".  The counting
functions look only at the state of their own thread: an `IDLE` thread goes on, and an `UNINIT` one calls
`probe_thread_init`, which returns at once, and then goes on as well.

A run is watched with two additions: whether the library is closing, from a `probe_exit` until `funcc_init` sets the
global state to `RUNNING` again, and which threads started a counting call since.
-/

namespace StubProfile.Probe

open Machine

variable {τ : Type} [DecidableEq τ] {hk : Hooks} {σ σ' : State τ} {t u : τ}

/-- The library, whether it is closing, and the threads that started their last counting call since. -/
structure Shutdown (τ : Type) where
  lib : State τ
  closing : Bool
  late : τ → Bool

def Shutdown.initial (τ : Type) : Shutdown τ := ⟨State.initial τ, false, fun _ => false⟩

/-- Is the library closing after the call? -/
def closingAfter (w : Shutdown τ) : Call τ → Bool
  | .probeExit _ => true
  | .threadGlobalExit _ => w.closing || decide (w.lib.ctlState ≠ .uninit) -- it calls `probe_exit`
  | .funccInit _ _ _ _ => w.closing && decide (w.lib.ctlState ≠ .uninit) -- else it sets `RUNNING`
  | _ => w.closing

def lateAfter (w : Shutdown τ) : Call τ → τ → Bool
  | .countEnter t _ _ _ => if w.lib.pc t = .outside then Function.update w.late t w.closing else w.late
  | .funccInit t min max m => if closingAfter w (.funccInit t min max m) then w.late else fun _ => false
  | _ => w.late

def shutdownStep (hk : Hooks) (w : Shutdown τ) (a : Call τ) : Except Fault (Shutdown τ) :=
  match step hk w.lib a with
  | .ok σ' => .ok ⟨σ', closingAfter w a, lateAfter w a⟩
  | .error e => .error e

/-- A counting call that was started while the library is closing does not go on to store `RUNNING` or to change a
counter. -/
def NoIntruder (hk : Hooks) (w : Shutdown τ) : Prop :=
  ∀ t σ', w.late t = true → step hk w.lib (.countStep t) = .ok σ' →
    (∀ u, (σ'.info u).state = .running → (w.lib.info u).state = .running) ∧ σ'.heap = w.lib.heap

/-- While the library is closing, no `IDLE` or `UNINIT` thread starts a counting call. -/
def ClosingStep (w : Shutdown τ) : Call τ → Prop
  | .countEnter t _ _ _ =>
    w.closing = true → w.lib.pc t = .outside → (w.lib.info t).state ≠ .idle ∧ (w.lib.info t).state ≠ .uninit
  | _ => True

private theorem shutdownStep_ok {w w' : Shutdown τ} {a : Call τ} (h : shutdownStep hk w a = .ok w') :
    step hk w.lib a = .ok w'.lib ∧ w'.closing = closingAfter w a ∧ w'.late = lateAfter w a := by
  unfold shutdownStep at h
  cases hs : step hk w.lib a with
  | error e => simp [hs] at h
  | ok σ' =>
    simp only [hs] at h
    cases h
    exact ⟨rfl, rfl, rfl⟩

/-! ### The calls while the library is closing -/

/-- The global state is not `RUNNING` while the library is closing. -/
def ClosedCtl (w : Shutdown τ) : Prop := w.closing = true → w.lib.ctlState ≠ .running

private theorem closedCtl_step {w w' : Shutdown τ} {a : Call τ} (hb : ClosedCtl w) (h : shutdownStep hk w a = .ok w') :
    ClosedCtl w' := by
  obtain ⟨hs, hclosing, -⟩ := shutdownStep_ok h
  intro hc
  rw [hclosing] at hc
  cases a with
  | funccInit t min max m =>
    simp only [closingAfter, ne_eq, decide_not, Bool.and_eq_true, Bool.not_eq_true', decide_eq_false_iff_not] at hc
    simp only [step, funccInit, ne_eq, hc.2, not_false_eq_true, ↓reduceIte] at hs
    rw [← Except.ok.inj hs]
    exact hb hc.1
  | threadGlobalExit t =>
    simp only [step, threadGlobalExit] at hs
    split at hs
    · have hlib := Except.ok.inj hs
      rw [← hlib]
      simp
    · rename_i hu
      have hlib := Except.ok.inj hs
      rw [← hlib, not_not.1 hu]
      decide
  | probeThreadInit t m =>
    rw [(probeThreadInit_frame hs).2.2.2.1]
    exact hb hc
  | probeExit t =>
    rw [← Except.ok.inj hs]
    exact (probeExit_frame hk t w.lib).1
  | countEnter t k func m =>
    rcases countEnter_cases hs with ⟨-, heq⟩ | ⟨-, -, heq⟩ | ⟨-, -, σ₁, hi, heq⟩
    · rw [heq]
      exact hb hc
    · rw [heq]
      exact hb hc
    · rw [heq]
      show σ₁.ctlState ≠ .running
      rw [(probeThreadInit_frame hi).2.2.2.1]
      exact hb hc
  | countStep t =>
    rcases funccCountStep_cases hs with ⟨-, heq⟩ | ⟨k, func, -, heq⟩ | ⟨k, func, heap, -, heq⟩ | ⟨-, heq⟩ <;>
      (rw [heq]; exact hb hc)

/-- The calls that are no counting calls leave every thread where it stands. -/
private theorem step_pc {a : Call τ} (hs : step hk σ a = .ok σ') (hne : ∀ t k func m, a ≠ .countEnter t k func m)
    (hns : ∀ t, a ≠ .countStep t) : σ'.pc = σ.pc := by
  cases a with
  | funccInit t min max m =>
    simp only [step, funccInit] at hs
    split at hs
    · cases hs
      rfl
    · exact (probeThreadInit_frame hs).2.2.1
  | threadGlobalExit t =>
    simp only [step, threadGlobalExit] at hs
    rw [← Except.ok.inj hs]
    split
    · exact (probeExit_frame hk t σ).2
    · rfl
  | probeThreadInit t m => exact (probeThreadInit_frame hs).2.2.1
  | probeExit t =>
    rw [← Except.ok.inj hs]
    exact (probeExit_frame hk t σ).2
  | countEnter t k func m => exact absurd rfl (hne t k func m)
  | countStep t => exact absurd rfl (hns t)

/-- No thread that started its call while the library is closing is inside it. -/
def LateOutside (w : Shutdown τ) : Prop := ∀ t, w.late t = true → w.lib.pc t = .outside

private theorem LateOutside.noIntruder {w : Shutdown τ} (h : LateOutside w) (hk : Hooks) : NoIntruder hk w := by
  intro t σ' ht hs
  have hout := h t ht
  simp only [step, funccCountStep, hout] at hs
  cases hs
  exact ⟨fun _ hu => hu, rfl⟩

/-- A call that the gate lets through while the library is closing goes on to store `RUNNING`. -/
private theorem not_noIntruder {w w' : Shutdown τ} {k : Kind} {func : UInt32} {m : Bool} (hb : ClosedCtl w)
    (hclosing : w.closing = true) (hout : w.lib.pc t = .outside)
    (hst : (w.lib.info t).state = .idle ∨ (w.lib.info t).state = .uninit)
    (h : shutdownStep hk w (.countEnter t k func m) = .ok w') : ¬ NoIntruder hk w' := by
  obtain ⟨hs, -, hlate⟩ := shutdownStep_ok h
  have hlib : w'.lib = w.lib.setPc t (.entering k func) := by
    rcases countEnter_cases hs with ⟨hno, -⟩ | ⟨-, -, heq⟩ | ⟨-, -, σ₁, hi, heq⟩
    · rcases hno with hp | ⟨hu, hi⟩
      · exact absurd hout hp
      · rcases hst with h' | h'
        · exact absurd h' hi
        · exact absurd h' hu
    · exact heq
    · -- `probe_thread_init` returns at its first test
      rcases probeThreadInit_cases hi with ⟨-, rfl⟩ | ⟨hr, -⟩
      · exact heq
      · exact absurd hr.1 (hb hclosing)
  intro hno
  have hl : w'.late t = true := by
    rw [hlate]
    simp [lateAfter, hout, hclosing]
  have hstep : step hk w'.lib (.countStep t) =
      .ok ((w'.lib.setState t .running).setPc t (.counting k func)) := by
    rw [hlib]
    simp [step, funccCountStep, State.setPc]
  have hrun := (hno t _ hl hstep).1 t (by simp [State.setState, State.setPc])
  rw [hlib] at hrun
  rcases hst with h' | h'
  · simp [State.setPc, h'] at hrun
  · simp [State.setPc, h'] at hrun

/-- A counting call starts: behind the closing the thread is turned away, before it the thread is not late. -/
private theorem LateOutside.countEnter {w : Shutdown τ} {u : τ} {k : Kind} {func : UInt32} {m : Bool} {σ' : State τ}
    (hl : LateOutside w) (hc : ClosingStep w (.countEnter u k func m))
    (hs : step hk w.lib (.countEnter u k func m) = .ok σ') {t : τ}
    (ht : lateAfter w (.countEnter u k func m) t = true) : σ'.pc t = .outside := by
  by_cases hout : w.lib.pc u = .outside
  · simp only [lateAfter, hout, ↓reduceIte] at ht
    cases hclosing : w.closing with
    | true =>
      obtain ⟨hidle, hun⟩ := hc hclosing hout
      rcases countEnter_cases hs with ⟨-, heq⟩ | ⟨-, hi, -⟩ | ⟨-, hu, -⟩
      · rw [heq]
        by_cases htu : t = u
        · rw [htu, hout]
        · rw [Function.update_of_ne htu] at ht
          exact hl t ht
      · exact absurd hi hidle
      · exact absurd hu hun
    | false =>
      have htu : t ≠ u := by
        rintro rfl
        simp [hclosing] at ht
      rw [Function.update_of_ne htu] at ht
      rcases countEnter_cases hs with ⟨-, heq⟩ | ⟨-, -, heq⟩ | ⟨-, -, σ₁, hi, heq⟩
      · rw [heq]
        exact hl t ht
      · simpa [heq, State.setPc, htu] using hl t ht
      · simpa [heq, State.setPc, htu, (probeThreadInit_frame hi).2.2.1] using hl t ht
  · simp only [lateAfter, hout, ↓reduceIte] at ht
    rcases countEnter_cases hs with ⟨-, heq⟩ | ⟨hp, -⟩ | ⟨hp, -⟩
    · rw [heq]
      exact hl t ht
    · exact absurd hp hout
    · exact absurd hp hout

private theorem lateOutside_step {w w' : Shutdown τ} {a : Call τ} (hl : LateOutside w) (hc : ClosingStep w a)
    (h : shutdownStep hk w a = .ok w') : LateOutside w' := by
  obtain ⟨hs, -, hlate⟩ := shutdownStep_ok h
  intro t ht
  rw [hlate] at ht
  cases a with
  | funccInit u min max m =>
    rw [step_pc hs (by simp) (by simp)]
    simp only [lateAfter] at ht
    split at ht
    · exact hl t ht
    · cases ht
  | threadGlobalExit u =>
    rw [step_pc hs (by simp) (by simp)]
    exact hl t ht
  | probeThreadInit u m =>
    rw [step_pc hs (by simp) (by simp)]
    exact hl t ht
  | probeExit u =>
    rw [step_pc hs (by simp) (by simp)]
    exact hl t ht
  | countEnter u k func m => exact hl.countEnter hc hs ht
  | countStep u =>
    have hout : w.lib.pc t = .outside := hl t ht
    by_cases htu : t = u
    · subst htu
      simp only [step, funccCountStep, hout] at hs
      rw [← Except.ok.inj hs]
      exact hout
    · rcases funccCountStep_cases hs with ⟨-, heq⟩ | ⟨k, func, -, heq⟩ | ⟨k, func, heap, -, heq⟩ | ⟨-, heq⟩ <;>
        simpa [heq, State.setPc, State.setState, htu] using hout

/-- From a state without an intruder, a step keeps the intruders out exactly if it meets `ClosingStep`. -/
private theorem lateOutside_step_iff {w w' : Shutdown τ} {a : Call τ} (hb : ClosedCtl w) (hl : LateOutside w)
    (h : shutdownStep hk w a = .ok w') : NoIntruder hk w' ↔ ClosingStep w a := by
  constructor
  · intro hno
    cases a with
    | countEnter t k func m =>
      intro hclosing hout
      by_contra hst
      exact not_noIntruder hb hclosing hout (by tauto) h hno
    | _ => trivial
  · exact fun hc => (lateOutside_step hl hc h).noIntruder hk

/-- A run keeps the threads out of a closing library exactly if no `IDLE` or `UNINIT` thread starts a counting call
while the library is closing. -/
theorem noIntruder_iff (hk : Hooks) (l : List (Call τ)) :
    Always (shutdownStep hk) (NoIntruder hk) (Shutdown.initial τ) l ↔
      Meets (shutdownStep hk) ClosingStep (Shutdown.initial τ) l := by
  have hb₀ : ClosedCtl (Shutdown.initial τ) := fun h => by cases h
  have hl₀ : LateOutside (Shutdown.initial τ) := fun t ht => by cases ht
  constructor
  · intro h
    have hboth : Always (shutdownStep hk) (fun w => ClosedCtl w ∧ LateOutside w) (Shutdown.initial τ) l := by
      refine h.strengthen (fun w a w' hq hno hs => ?_) ⟨hb₀, hl₀⟩
      exact ⟨closedCtl_step hq.1 hs, lateOutside_step hq.2 ((lateOutside_step_iff hq.1 hq.2 hs).1 hno) hs⟩
    refine (always_iff_meets (B := ClosedCtl) (P := LateOutside) ?_ ?_ hb₀ hl₀).1 (hboth.imp fun _ hw => hw.2)
    · exact fun w a w' hb hs => closedCtl_step hb hs
    · intro w a w' hb hl hs
      exact ⟨fun hl' => (lateOutside_step_iff hb hl hs).1 (hl'.noIntruder hk), fun hc => lateOutside_step hl hc hs⟩
  · intro hm
    exact (always_of_meets (fun w a w' hl hc hs => lateOutside_step hl hc hs) hl₀ hm).imp
      fun w hl => hl.noIntruder hk

/-- The thread inside the probe may finish; behind the exit no thread starts a counting call. -/
theorem noIntruder_two_threads :
    Always (shutdownStep funccHooks) (NoIntruder funccHooks) (Shutdown.initial Bool)
      [.funccInit true 10 20 true, .countEnter true .pre 12 true, .probeExit false, .countStep true,
        .countStep false] := by
  apply (noIntruder_iff _ _).2
  refine Meets.cons rfl trivial ?_
  refine Meets.cons rfl (fun hclosing => by cases hclosing) ?_
  refine Meets.cons rfl trivial ?_
  refine Meets.cons rfl trivial ?_
  exact Meets.cons rfl trivial trivial

/-- The only thread is `IDLE`, so `probe_exit` leaves the global state at `EXIT`; the next counting call of the thread
goes through and counts. -/
theorem idle_thread_enters_after_exit :
    ∃ w, run (shutdownStep funccHooks) (Shutdown.initial Unit)
        [.funccInit () 10 20 true, .probeExit (), .countEnter () .pre 12 true] = .ok w ∧
      w.lib.ctlState = .exit ∧ w.closing = true ∧ ¬ NoIntruder funccHooks w := by
  refine ⟨_, rfl, rfl, rfl, fun h => ?_⟩
  have hrun := (h () _ rfl rfl).1 () rfl
  cases hrun

end StubProfile.Probe
