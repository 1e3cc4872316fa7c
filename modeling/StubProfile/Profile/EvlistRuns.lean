import StubProfile.Lib.Machine
import StubProfile.Profile.EvlistCalls
import StubProfile.Profile.Process

/-!
# Series of calls on the event list

A series of calls does what it does on lists of values, as long as a thread map is created once and the strings name
events; then `prof_evlist__delete` frees everything but the copies of the names that the parser makes
(`linkedEvlist_freed`).  A name that is not known is read after it was freed, so that these strings are the only ones
without a fault (`linkedEvlist_safe_iff`).

`__create_evlist` is such a series, with `prof_evlist__delete` on its paths that fail (`createLinkedEvlist_created`).
-/

namespace StubProfile.Profile

open Machine Objects
open LinkRing (ok_bind)

variable {s s' : LinkedEvlist} {str : List Char}

/-! ### Series of calls -/

inductive EvlistCall where
  | addFromStr (str : List Char)
  | createThreadmap (tasks : List Int) (allocOk : Bool)
  | start (sys : Sys)
  | stop

/-- A fault, or `none` for a loop that does not end. -/
def ended {σ : Type} : Except LinkRing.Fault (Option σ) → Except (Option LinkRing.Fault) σ
  | .error e => .error (some e)
  | .ok none => .error none
  | .ok (some s) => .ok s

def LinkedEvlist.step (s : LinkedEvlist) : EvlistCall → Except (Option LinkRing.Fault) LinkedEvlist
  | .addFromStr str => ended ((s.addFromStr str).map fun r => some r.2)
  | .createThreadmap tasks allocOk => .ok (s.createThreadmap tasks allocOk).2
  | .start sys => ended ((s.start sys).map (Option.map Prod.snd))
  | .stop => ended s.stop

/-- The calls on a list of values. -/
def evlistSpec (t : CountedEvlist × List Syscall) : EvlistCall → CountedEvlist × List Syscall
  | .addFromStr str => ((addFromStr t.1 str).2, t.2)
  | .createThreadmap tasks allocOk =>
    match threadMapNew tasks allocOk with
    | none => t
    | some map => ({ t.1 with threads := some map }, t.2)
  | .start sys =>
    ({ t.1 with toEvlist := (evlistStart sys t.1.toEvlist t.2).2.1 }, (evlistStart sys t.1.toEvlist t.2).2.2)
  | .stop => ({ t.1 with toEvlist := (evlistStop t.1.toEvlist t.2).1 }, (evlistStop t.1.toEvlist t.2).2)

/-- A thread map is created once. -/
def OneMap (t : CountedEvlist × List Syscall) : EvlistCall → Prop
  | .createThreadmap _ _ => t.1.threads = none
  | _ => True

/-- Every piece of the string names an event. -/
def EvlistCall.Known : EvlistCall → Prop
  | .addFromStr str => ∀ piece ∈ addPieces str.length 0 str, (evselParse piece).isSome
  | _ => True

/-- The list in memory stands for the list of values, and every event has left a string that no structure points to. -/
def LinkedEvlist.Refines (t : CountedEvlist × List Syscall) (s : LinkedEvlist) : Prop :=
  ∃ ns lost evs, s.Follows ns lost evs t.1 t.2 ∧ lost.length = ns.length

private theorem LinkedEvlist.new_refines (log : List Syscall) :
    ∃ s, LinkedEvlist.new log = .ok s ∧ s.Refines (CountedEvlist.new, log) := by
  have hstart : Links.Represents (⟨[], [.head]⟩ : Links.Lists EvPlace)
      ⟨fun p => p = .head, fun _ => none, fun _ => none⟩ :=
    ⟨by simp [Links.Lists.cells], by simp [Links.Lists.cells], by simp⟩
  obtain ⟨links, hinit, hlinks⟩ := hstart.initListHead
  have hcall : LinkedEvlist.new log = .ok ⟨links, fun _ => ⟨none, ⟨0, 0, false, false⟩, 0, none, none, false, false⟩,
      0, 0, none, ⟨.empty _, .empty _, .empty _, log⟩⟩ := by
    simp only [LinkedEvlist.new, hinit, ok_bind]
    rfl
  refine ⟨_, hcall, [], [], fun _ => evselNew [] ⟨0, 0, false, false⟩ 0,
    ⟨⟨hlinks, ?_, rfl, ?_, .empty, .empty, .empty⟩, rfl, rfl, rfl, rfl, ?_⟩, rfl⟩
  · exact fun _ hn => absurd hn List.not_mem_nil
  · exact fun _ hn => absurd hn List.not_mem_nil
  · exact fun _ hev => absurd hev List.not_mem_nil

private theorem LinkedEvlist.Refines.step {t : CountedEvlist × List Syscall} {a : EvlistCall} (h : s.Refines t)
    (hmap : OneMap t a) (hknown : a.Known) : ∃ s', s.step a = .ok s' ∧ s'.Refines (evlistSpec t a) := by
  obtain ⟨ns, lost, evs, h, hlost⟩ := h
  cases a with
  | addFromStr str =>
    obtain ⟨s', ns', copies, evs', hcall, h', hcopies⟩ := h.addFromStr hknown
    exact ⟨s', by simp [LinkedEvlist.step, hcall, Except.map, ended], _, _, evs', h', by simp [hlost, hcopies]; omega⟩
  | createThreadmap tasks allocOk =>
    refine ⟨_, rfl, ns, lost, evs, ?_, hlost⟩
    cases hnew : threadMapNew tasks allocOk with
    | none => simpa [evlistSpec, LinkedEvlist.createThreadmap, hnew] using h
    | some map => simpa [evlistSpec, hnew] using h.createThreadmap hmap hnew
  | start sys =>
    obtain ⟨s', evs', hcall, h'⟩ := h.start sys
    exact ⟨s', by simp [LinkedEvlist.step, hcall, Except.map, ended], ns, lost, evs', h', hlost⟩
  | stop =>
    obtain ⟨s', evs', hcall, h'⟩ := h.stop
    exact ⟨s', by simp [LinkedEvlist.step, hcall, ended], ns, lost, evs', h', hlost⟩

private theorem LinkedEvlist.Refines.run {t : CountedEvlist × List Syscall} {l : List EvlistCall} (h : s.Refines t)
    (hmap : Allowed evlistSpec OneMap t l) (hknown : ∀ a ∈ l, a.Known) :
    ∃ s', Machine.run LinkedEvlist.step s l = .ok s' ∧ s'.Refines (l.foldl evlistSpec t) := by
  have hstep : ∀ (t : CountedEvlist × List Syscall) (s : LinkedEvlist) (a : EvlistCall), s.Refines t →
      OneMap t a ∧ a.Known → ∃ s', s.step a = .ok s' ∧ s'.Refines (evlistSpec t a) :=
    fun _ _ _ h hlegal => h.step hlegal.1 hlegal.2
  exact run_refines (R := LinkedEvlist.Refines) hstep h (hmap.and_mem hknown)

/-- Any series of calls that creates one thread map and adds strings that name events does what it does on lists of
values, without a fault.  `prof_evlist__delete` then makes the system calls it makes on such a list, and frees
everything but one string for each event: the copy of the name that the parser made. -/
theorem linkedEvlist_freed (log : List Syscall) {l : List EvlistCall}
    (hmap : Allowed evlistSpec OneMap (CountedEvlist.new, log) l) (hknown : ∀ a ∈ l, a.Known) :
    ∃ s₀ s s' lost, LinkedEvlist.new log = .ok s₀ ∧ run LinkedEvlist.step s₀ l = .ok s ∧
      s.Refines (l.foldl evlistSpec (CountedEvlist.new, log)) ∧ s.delete = .ok (some s') ∧
      s'.mem.log = evlistDelete (l.foldl evlistSpec (CountedEvlist.new, log)).1.toEvlist
        (l.foldl evlistSpec (CountedEvlist.new, log)).2 ∧
      s'.Freed lost ∧ lost.length = (l.foldl evlistSpec (CountedEvlist.new, log)).1.nrEntries := by
  obtain ⟨s₀, hnew, h₀⟩ := LinkedEvlist.new_refines log
  obtain ⟨s, hrun, h⟩ := h₀.run hmap hknown
  obtain ⟨ns, lost, evs, hfollows, hlost⟩ := id h
  obtain ⟨s', hdelete, hlog, hfreed⟩ := hfollows.delete
  exact ⟨s₀, s, s', lost, hnew, hrun, h, hdelete, hlog, hfreed, hlost.trans hfollows.counted.symm⟩

/-- A string without a comma and of more than one character is one piece. -/
private theorem addPieces_single (hcomma : strchr ',' str = none) (hlen : 1 < str.length) :
    addPieces str.length 0 str = [str] := by
  rw [addPieces_none hcomma, if_pos (by omega)]

def cyclesStr : List Char := "cpu-cycles".toList

private theorem addPieces_cyclesStr : addPieces cyclesStr.length 0 cyclesStr = [cyclesStr] :=
  addPieces_single (by decide +kernel) (by decide +kernel)

private theorem known_cyclesStr : (EvlistCall.addFromStr cyclesStr).Known := by
  show ∀ piece ∈ addPieces cyclesStr.length 0 cyclesStr, (evselParse piece).isSome
  rw [addPieces_cyclesStr, List.forall_mem_singleton]
  decide +kernel

private theorem appends_cyclesStr :
    Appends CountedEvlist.new [(cyclesStr, ⟨0, 0, false, false⟩)] (addFromStr CountedEvlist.new cyclesStr) := by
  have happ := addAll_appends (appends_nil CountedEvlist.new) [cyclesStr]
  have hevents : [] ++ [cyclesStr].filterMap fieldEvent = [(cyclesStr, ⟨0, 0, false, false⟩)] := by decide +kernel
  rwa [hevents, ← addPieces_cyclesStr, ← addFromStr_eq _ (by decide +kernel)] at happ

/-- One event, started for two threads and stopped again. -/
theorem linkedEvlist_freed_cycles :
    ∃ s₀ s s' lost, LinkedEvlist.new [] = .ok s₀ ∧
      run LinkedEvlist.step s₀ [.addFromStr cyclesStr, .createThreadmap [7, 8] true, .start goodSys, .stop] = .ok s ∧
      s.delete = .ok (some s') ∧ s'.Freed lost ∧ lost.length = 1 := by
  obtain ⟨-, hnr, hthreads, -⟩ := appends_cyclesStr
  have hmap : Allowed evlistSpec OneMap (CountedEvlist.new, [])
      [.addFromStr cyclesStr, .createThreadmap [7, 8] true, .start goodSys, .stop] :=
    ⟨trivial, hthreads, trivial, trivial, trivial⟩
  have hknown : ∀ a ∈ [.addFromStr cyclesStr, .createThreadmap [7, 8] true, .start goodSys, .stop],
      EvlistCall.Known a := by
    simpa [EvlistCall.Known] using known_cyclesStr
  obtain ⟨s₀, s, s', lost, hnew, hrun, -, hdelete, -, hfreed, hlost⟩ := linkedEvlist_freed [] hmap hknown
  exact ⟨s₀, s, s', lost, hnew, hrun, hdelete, hfreed, hlost.trans hnr⟩

/-! ### Names that are not known -/

private theorem known_of_add {r : Int × LinkedEvlist} (h : s.add str = .ok r) : (evselParse str).isSome := by
  cases hstr : evselParse str with
  | some event => rfl
  | none =>
    rw [LinkedEvlist.add, parseCopy_none _ hstr] at h
    cases h

private theorem known_of_addAll {pieces : List (List Char)} {r r' : Int × LinkedEvlist}
    (h : pieces.foldlM LinkedEvlist.addPiece r = .ok r') : ∀ piece ∈ pieces, (evselParse piece).isSome := by
  induction pieces generalizing r with
  | nil => exact fun _ hp => absurd hp List.not_mem_nil
  | cons piece pieces ih =>
    rw [List.foldlM_cons, LinkedEvlist.addPiece] at h
    cases hadd : r.2.add piece with
    | error e =>
      rw [hadd] at h
      cases h
    | ok a =>
      rw [hadd] at h
      intro p hp
      obtain rfl | hp := List.mem_cons.1 hp
      · exact known_of_add hadd
      · exact ih h p hp

/-- A call that does not fault adds no string with a name that is not known. -/
private theorem known_of_step {a : EvlistCall} (h : s.step a = .ok s') : a.Known := by
  cases a with
  | addFromStr str =>
    by_cases hstr : str = []
    · subst hstr
      intro piece hpiece
      rw [addPieces_none rfl] at hpiece
      exact absurd hpiece List.not_mem_nil
    · have hlen : str.length ≠ 0 := fun hnil => hstr (List.eq_nil_of_length_eq_zero hnil)
      simp only [LinkedEvlist.step, LinkedEvlist.addFromStr, if_neg hlen] at h
      generalize ({ s with mem := _ } : LinkedEvlist) = s₁ at h
      cases hloop : (addPieces str.length 0 str).foldlM LinkedEvlist.addPiece (0, s₁) with
      | error e =>
        rw [hloop] at h
        cases h
      | ok r => exact known_of_addAll hloop
  | createThreadmap tasks allocOk => trivial
  | start sys => trivial
  | stop => trivial

/-- A series of calls that creates one thread map runs without a fault exactly if every piece of every string names an
event. -/
theorem linkedEvlist_safe_iff {log : List Syscall} {s₀ : LinkedEvlist} {l : List EvlistCall}
    (hnew : LinkedEvlist.new log = .ok s₀) (hmap : Allowed evlistSpec OneMap (CountedEvlist.new, log) l) :
    (∃ s, run LinkedEvlist.step s₀ l = .ok s) ↔ ∀ a ∈ l, a.Known := by
  constructor
  · intro hrun
    obtain ⟨s, hrun⟩ := hrun
    clear hnew hmap
    induction l generalizing s₀ with
    | nil => exact fun _ ha => absurd ha List.not_mem_nil
    | cons a l ih =>
      obtain ⟨s₁, hstep, hrest⟩ := run_cons_eq_ok.1 hrun
      intro b hb
      obtain rfl | hb := List.mem_cons.1 hb
      · exact known_of_step hstep
      · exact ih hrest b hb
  · intro hknown
    obtain ⟨s₁, hnew₁, h₁⟩ := LinkedEvlist.new_refines log
    obtain rfl := Except.ok.inj (hnew.symm.trans hnew₁)
    obtain ⟨s, hrun, -⟩ := h₁.run hmap hknown
    exact ⟨s, hrun⟩

theorem linkedEvlist_safe_unknown : ∃ s₀, LinkedEvlist.new [] = .ok s₀ ∧
    ¬ ∃ s, run LinkedEvlist.step s₀ [.addFromStr "nothing".toList] = .ok s := by
  obtain ⟨s₀, hnew, -⟩ := LinkedEvlist.new_refines []
  refine ⟨s₀, hnew, fun hrun => ?_⟩
  have hmap : Allowed evlistSpec OneMap (CountedEvlist.new, []) [.addFromStr "nothing".toList] := ⟨trivial, trivial⟩
  have hknown : ∀ piece ∈ addPieces "nothing".toList.length 0 "nothing".toList, (evselParse piece).isSome :=
    (linkedEvlist_safe_iff hnew hmap).1 hrun _ List.mem_cons_self
  rw [addPieces_single (by decide +kernel) (by decide +kernel)] at hknown
  exact absurd (hknown _ List.mem_cons_self) (by decide +kernel)

/-! ### `__create_evlist` -/

/-- The label `fail_destroy_evlist`. -/
def destroyEvlist (s : LinkedEvlist) : Except LinkRing.Fault (Option (Int × LinkedEvlist)) :=
  whenEnded s.delete fun s => .ok (some (-1, s))

/-- `__create_evlist`, where `prof_evlist__new` succeeds. -/
def createLinkedEvlist (sys : Sys) (str : List Char) (tasks : List Int) (mapOk : Bool) (log : List Syscall) :
    Except LinkRing.Fault (Option (Int × LinkedEvlist)) := do
  let s ← LinkedEvlist.new log
  let r ← s.addFromStr str
  if r.1 < 0 then destroyEvlist r.2
  else
    let r := r.2.createThreadmap tasks mapOk
    if r.1 < 0 then destroyEvlist r.2
    else whenEnded (r.2.start sys) fun r => if r.1 < 0 then destroyEvlist r.2 else .ok (some (0, r.2))

/-- What `__create_evlist` leaves: a list that `prof_exit` can delete, or nothing; in both cases only the strings `lost`
are left in the end. -/
def Created (s : LinkedEvlist) (lost : List Nat) (ret : Int) : Option Evlist × List Syscall → Prop
  | (none, log) => ret = -1 ∧ s.mem.log = log ∧ s.Freed lost
  | (some el, log) => ret = 0 ∧ s.mem.log = log ∧
    ∃ s', s.delete = .ok (some s') ∧ s'.mem.log = evlistDelete el log ∧ s'.Freed lost

private theorem destroyEvlist_created {ns lost : List Nat} {evs : Nat → Evsel} {el : CountedEvlist} {log : List Syscall}
    (h : s.Follows ns lost evs el log) :
    ∃ s', destroyEvlist s = .ok (some (-1, s')) ∧ Created s' lost (-1) (none, evlistDelete el.toEvlist log) := by
  obtain ⟨s', hdelete, hlog, hfreed⟩ := h.delete
  exact ⟨s', by simp [destroyEvlist, hdelete], rfl, hlog, hfreed⟩

/-- What the environment says about the string of events is what the parser makes of it. -/
def InitEnv.Parses (env : InitEnv) (str : List Char) : Prop :=
  match env.parsed with
  | none => str = []
  | some parsed => Appends CountedEvlist.new parsed (addFromStr CountedEvlist.new str)

/-- If the list can be allocated and every piece of the string names an event, `__create_evlist` does in memory what it
does on values, and whether it fails behind that or not, everything is freed in the end, by the function itself or by
`prof_exit`, but the copies of the names. -/
theorem createLinkedEvlist_created (sys : Sys) (env : InitEnv) (log : List Syscall) (hok : env.evlistOk = true)
    (hparses : env.Parses str) (hknown : (EvlistCall.addFromStr str).Known) :
    ∃ ret s lost, createLinkedEvlist sys str env.tasks env.mapOk log = .ok (some (ret, s)) ∧
      Created s lost ret (createEvlist sys env log) ∧
      lost.length = (addFromStr CountedEvlist.new str).2.nrEntries := by
  obtain ⟨s₀, hnew, ns, lost, evs, h, hlost⟩ := LinkedEvlist.new_refines log
  obtain ⟨s₁, ns₁, copies, evs₁, hadd, h₁, hcopies⟩ := h.addFromStr hknown
  have hlen : (copies ++ lost).length = (addFromStr CountedEvlist.new str).2.nrEntries := by
    rw [h₁.counted, List.length_append, List.length_append, hcopies, hlost, Nat.add_comm]
  simp only [createLinkedEvlist, hnew, hadd, ok_bind, createEvlist, hok]
  cases hparsed : env.parsed with
  | none =>
    simp only [InitEnv.Parses, hparsed] at hparses
    subst hparses
    obtain ⟨s', hdestroy, hcreated⟩ := destroyEvlist_created h₁
    exact ⟨-1, s', copies ++ lost, by simpa [addFromStr, einval] using hdestroy, hcreated, hlen⟩
  | some parsed =>
    simp only [InitEnv.Parses, hparsed] at hparses
    have hret : ¬ (addFromStr CountedEvlist.new str).1 < 0 := by
      rw [hparses.1]
      omega
    rw [if_neg hret]
    cases hmap : threadMapNew env.tasks env.mapOk with
    | none =>
      obtain ⟨s', hdestroy, hcreated⟩ := destroyEvlist_created h₁
      rw [hparses.eq_evlistOfParsed] at hcreated
      exact ⟨-1, s', copies ++ lost, by simpa [LinkedEvlist.createThreadmap, hmap] using hdestroy,
        by simpa using hcreated, hlen⟩
    | some map =>
      have h₂ := h₁.createThreadmap hparses.2.2.1 hmap
      obtain ⟨s₃, evs₃, hstart, h₃⟩ := h₂.start sys
      have hel : ({ (addFromStr CountedEvlist.new str).2 with threads := some map } : CountedEvlist).toEvlist =
          { evlistOfParsed parsed with threads := some map } := by rw [← hparses.eq_evlistOfParsed]
      rw [hel] at hstart h₃
      obtain ⟨s', hdelete, hlog, hfreed⟩ := h₃.delete
      have hzero : (evlistStart sys { evlistOfParsed parsed with threads := some map } log).1 = 0 := rfl
      refine ⟨0, s₃, copies ++ lost, ?_, ?_, hlen⟩
      · have hcall : s₁.createThreadmap env.tasks env.mapOk = (0, (s₁.createThreadmap env.tasks env.mapOk).2) := by
          simp [LinkedEvlist.createThreadmap, hmap]
        rw [hcall]
        simp [hstart, hzero]
      · exact ⟨rfl, h₃.log_eq, s', hdelete, hlog, hfreed⟩

theorem createLinkedEvlist_created_cycles :
    ∃ ret s lost, createLinkedEvlist goodSys cyclesStr [7] true [] = .ok (some (ret, s)) ∧
      Created s lost ret
        (createEvlist goodSys ⟨true, true, some [(cyclesStr, ⟨0, 0, false, false⟩)], [7], true⟩ []) ∧
      lost.length = 1 := by
  obtain ⟨ret, s, lost, hcall, hcreated, hlost⟩ := createLinkedEvlist_created goodSys
    ⟨true, true, some [(cyclesStr, ⟨0, 0, false, false⟩)], [7], true⟩ [] rfl appends_cyclesStr known_cyclesStr
  exact ⟨ret, s, lost, hcall, hcreated, hlost.trans appends_cyclesStr.2.1⟩

end StubProfile.Profile
