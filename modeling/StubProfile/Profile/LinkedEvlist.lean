import StubProfile.Links.Runs
import StubProfile.Profile.EvselMemory
import StubProfile.Profile.Parser

/-!
# The event list with its links

`struct prof_evlist` as it is in memory: the events are structures that are linked to the head in the list, and the
functions of `evlist.c` go along the links.  A structure, a string, a thread map or an array that is freed is gone; to
touch it or to free it again is a fault.

`LinkedEvlist.Holds` says which events the structures stand for and who owns the objects.  A loop over the list does for
the structures what the loop over a list of events does (`LinkedEvlist.Holds.forEach`).
-/

namespace StubProfile.Profile

open Links Objects
open LinkRing (Memory ok_bind pure_eq_ok)
open scoped List

/-- The places of links: the head in `struct prof_evlist`, and the events in the order of their allocation. -/
inductive EvPlace where
  | head
  | evsel (n : Nat)
deriving DecidableEq

/-- `struct prof_evlist`, with the events and what they point to; `zallocs` is the number of events allocated so far. -/
structure LinkedEvlist where
  links : Memory EvPlace
  evsels : Nat → EvselCell
  zallocs : Nat
  nrEntries : Nat
  threads : Option Nat
  mem : EvMem

/-- `prof_evlist__new`. -/
def LinkedEvlist.new (log : List Syscall) : Except LinkRing.Fault LinkedEvlist := do
  let links ← initListHead ⟨fun p => p = .head, fun _ => none, fun _ => none⟩ (some .head)
  return ⟨links, fun _ => ⟨none, ⟨0, 0, false, false⟩, 0, none, none, false, false⟩, 0, 0, none,
    ⟨.empty _, .empty _, .empty _, log⟩⟩

/-! ### Adding events -/

/-- What is left of the string at the first colon. -/
def parsedName (str : List Char) : List Char :=
  match strchr ':' str with
  | none => str
  | some (name, _) => name

/-- `prof_evsel__parse`: the address of its copy of the name, and the attributes. -/
def parseCopy (strings : Store (List Char)) (str : List Char) :
    Except LinkRing.Fault (Option (Nat × Attr) × Store (List Char)) := do
  let s := strings.next
  let strings := strings.alloc (parsedName str)
  match evselParse str with
  | none =>
    let strings ← strings.release (some s)
    -- the message says which name was not found
    let _ ← strings.load (some s)
    return (none, strings)
  | some (_, attr) => return (some (s, attr), strings)

/-- `__prof_evlist__add`. -/
def LinkedEvlist.add (s : LinkedEvlist) (str : List Char) : Except LinkRing.Fault (Int × LinkedEvlist) := do
  let r ← parseCopy s.mem.strings str
  match r.1 with
  | none => return (0, { s with mem := { s.mem with strings := r.2 } })
  | some (copy, attr) =>
    let name ← r.2.load (some copy)
    let evsel := some (EvPlace.evsel s.zallocs)
    let links ← initListHead (s.links.alloc (.evsel s.zallocs)) evsel
    let links ← listAddTail links evsel (some .head)
    return (1, { s with
      links := links
      evsels := Function.update s.evsels s.zallocs ⟨some r.2.next, attr, s.nrEntries, none, none, false, false⟩
      zallocs := s.zallocs + 1
      nrEntries := s.nrEntries + 1
      mem := { s.mem with strings := r.2.alloc name } })

/-- The strings that `prof_evlist__add_from_str` gives to `__prof_evlist__add`; `pos` is `pcur - tmp` and `cur` the
string at `pcur`. -/
def addPieces (len pos : Nat) (cur : List Char) : List (List Char) :=
  match _h : strchr ',' cur with
  | none => if pos < len - 1 then [cur] else []
  | some (field, next) =>
    if pos + field.length = len - 1 then field :: if pos < len - 1 then [field] else []
    else field :: addPieces len (pos + field.length + 1) next
termination_by cur.length
decreasing_by
  rw [(strchr_eq_some _h).1, List.length_append, List.length_cons]
  omega

def LinkedEvlist.addPiece (r : Int × LinkedEvlist) (piece : List Char) : Except LinkRing.Fault (Int × LinkedEvlist) := do
  let a ← r.2.add piece
  return (r.1 + a.1, a.2)

/-- `prof_evlist__add_from_str`. -/
def LinkedEvlist.addFromStr (s : LinkedEvlist) (str : List Char) : Except LinkRing.Fault (Int × LinkedEvlist) := do
  if str.length = 0 then return (-einval, s)
  else
    let tmp := s.mem.strings.next
    let s := { s with mem := { s.mem with strings := s.mem.strings.alloc str } }
    let r ← (addPieces str.length 0 str).foldlM LinkedEvlist.addPiece (0, s)
    let strings ← r.2.mem.strings.release (some tmp)
    return (r.1, { r.2 with mem := { r.2.mem with strings := strings } })

/-- `prof_evlist__create_threadmap`. -/
def LinkedEvlist.createThreadmap (s : LinkedEvlist) (tasks : List Int) (allocOk : Bool) : Int × LinkedEvlist :=
  match threadMapNew tasks allocOk with
  | none => (-1, s)
  | some map => (0, { s with threads := some s.mem.maps.next, mem := { s.mem with maps := s.mem.maps.alloc map } })

/-! ### Loops over the events -/

/-- Do `f` for the event at `p`. -/
def LinkedEvlist.visit (f : EvselCell → EvMem → Except LinkRing.Fault (EvselCell × EvMem)) (s : LinkedEvlist)
    (p : EvPlace) : Except LinkRing.Fault LinkedEvlist := do
  match ← s.links.deref (some p) with
  | .head => .error .absent
  | .evsel n =>
    let r ← f (s.evsels n) s.mem
    return { s with evsels := Function.update s.evsels n r.1, mem := r.2 }

/-- `evlist__for_each` and, with `back`, `evlist__for_each_reverse`.  The functions on events do not change the links;
`none` if the loop does not end within `nr_entries` turns. -/
def LinkedEvlist.forEach (back : Bool) (f : EvselCell → EvMem → Except LinkRing.Fault (EvselCell × EvMem))
    (s : LinkedEvlist) : Except LinkRing.Fault (Option LinkedEvlist) := do
  match ← (if back then listForEachPrev else listForEach) s.links .head (s.nrEntries + 1) with
  | none => return none
  | some ps =>
    let s ← ps.foldlM (LinkedEvlist.visit f) s
    return some s

/-- Go on behind a loop that has ended. -/
def whenEnded {σ ρ : Type} (loop : Except LinkRing.Fault (Option σ)) (f : σ → Except LinkRing.Fault (Option ρ)) :
    Except LinkRing.Fault (Option ρ) := do
  match ← loop with
  | none => return none
  | some s => f s

/-- The body of the loop of `prof_evlist__start`. -/
def openClosed (sys : Sys) (threads : Nat) (ev : EvselCell) (m : EvMem) : Except LinkRing.Fault (EvselCell × EvMem) := do
  if ev.isOpen then return (ev, m)
  else
    let r ← ev.open sys threads m
    return r.2

/-- The body of the loop of `prof_evlist__enable`. -/
def enableOpen (sys : Sys) (nthreads : Nat) (ev : EvselCell) (m : EvMem) : Except LinkRing.Fault (EvselCell × EvMem) := do
  let r ← ev.enable sys nthreads m
  return r.2

/-- `prof_evlist__start`. -/
def LinkedEvlist.start (sys : Sys) (s : LinkedEvlist) : Except LinkRing.Fault (Option (Int × LinkedEvlist)) := do
  match s.threads with
  | none => return some (-1, s)
  | some threads =>
    let nthreads ← threadMapNr s.mem.maps (some threads)
    whenEnded (s.forEach false (openClosed sys threads)) fun s =>
      whenEnded (s.forEach false (enableOpen sys nthreads)) fun s => return some (0, s)

/-- `prof_evlist__stop`. -/
def LinkedEvlist.stop (s : LinkedEvlist) : Except LinkRing.Fault (Option LinkedEvlist) := do
  let nthreads ← threadMapNr s.mem.maps s.threads
  s.forEach false fun ev => ev.disable nthreads

/-- The body of the second loop of `prof_evlist__delete`. -/
def LinkedEvlist.deleteEvsel (s : LinkedEvlist) (p : EvPlace) : Except LinkRing.Fault LinkedEvlist := do
  let links ← listDelInit s.links (some p)
  match p with
  | .head => .error .absent
  | .evsel n =>
    let mem ← (s.evsels n).delete s.mem
    let links ← links.free p
    return { s with links := links, mem := mem }

/-- The second half of `prof_evlist__delete`, where the events are closed. -/
def LinkedEvlist.deleteClosed (s : LinkedEvlist) : Except LinkRing.Fault (Option LinkedEvlist) := do
  let maps ← s.mem.maps.release s.threads
  let s := { s with threads := none, mem := { s.mem with maps := maps } }
  whenEnded (listForEachSafe LinkedEvlist.links LinkedEvlist.deleteEvsel .head (s.nrEntries + 1) s) fun s => do
    let links ← s.links.free .head
    return some { s with links := links, nrEntries := 0 }

/-- `prof_evlist__delete`. -/
def LinkedEvlist.delete (s : LinkedEvlist) : Except LinkRing.Fault (Option LinkedEvlist) :=
  whenEnded (s.forEach true EvselCell.close) LinkedEvlist.deleteClosed

/-! ### What the list holds -/

/-- The structures `ns` are linked to the head in this order and stand for the events `evs`.  Every object has one
owner; the strings `lost` are those that no structure points to. -/
structure LinkedEvlist.Holds (s : LinkedEvlist) (ns lost : List Nat) (evs : Nat → Evsel) : Prop where
  links : Links.Represents ⟨[(.head, ns.map .evsel)], []⟩ s.links
  old : ∀ n ∈ ns, n < s.zallocs
  nrEntries : s.nrEntries = ns.length
  reads : ∀ n ∈ ns, (s.evsels n).Reads s.mem (evs n)
  strings : s.mem.strings.Owned (ns.filterMap (fun n => (s.evsels n).name) ++ lost)
  arrays : s.mem.arrays.Owned (ns.filterMap fun n => (s.evsels n).perThread)
  maps : s.mem.maps.Owned s.threads.toList

variable {s s' : LinkedEvlist} {ns lost qs : List Nat} {evs : Nat → Evsel} {n : Nat}

theorem LinkedEvlist.Holds.nodup (h : s.Holds ns lost evs) : ns.Nodup := by
  have hnodup := h.links.nodup_ring List.mem_cons_self
  exact (List.nodup_cons.1 hnodup).2.of_map

private theorem LinkedEvlist.Holds.live (h : s.Holds ns lost evs) (hn : n ∈ ns) : s.links.live (.evsel n) = true :=
  h.links.live_of_ring List.mem_cons_self (List.mem_cons_of_mem _ (List.mem_map_of_mem hn))

/-- The objects that a structure points to stay. -/
theorem EvselCell.Reads.frame {c : EvselCell} {m m' : EvMem} {ev : Evsel} (hr : c.Reads m ev)
    (hstrings : ∀ a, c.name = some a → m'.strings.obj a = m.strings.obj a)
    (hmaps : ∀ a, c.threads = some a → m'.maps.obj a = m.maps.obj a)
    (harrays : ∀ a, c.perThread = some a → m'.arrays.obj a = m.arrays.obj a) : c.Reads m' ev := by
  obtain ⟨a, ha, hname⟩ := hr.name
  exact ⟨⟨a, ha, (hstrings a ha).trans hname⟩, hr.attr, hr.idx, (Option.map_congr hmaps).trans hr.threads,
    (Option.map_congr harrays).trans hr.perThread, hr.isOpen, hr.isEnable⟩

theorem filterMap_cons_toList (p : Nat → Option Nat) (n : Nat) (ns : List Nat) :
    (n :: ns).filterMap p = (p n).toList ++ ns.filterMap p := by
  cases hp : p n <;> simp [hp]

/-- The pointer of one of the structures comes first. -/
private theorem filterMap_split (p : Nat → Option Nat) (pre post : List Nat) (n : Nat) :
    (pre ++ n :: post).filterMap p ~ (p n).toList ++ (pre.filterMap p ++ post.filterMap p) := by
  rw [List.filterMap_append, filterMap_cons_toList, ← List.append_assoc, ← List.append_assoc]
  exact List.perm_append_comm.append_right _

/-- The pointers of the structures that stay. -/
theorem filterMap_update {c : EvselCell} (p : EvselCell → Option Nat) (hn : n ∉ ns) :
    ns.filterMap (fun b => p (Function.update s.evsels n c b)) = ns.filterMap fun b => p (s.evsels b) :=
  List.filterMap_congr fun b hb => by rw [Function.update_of_ne (ne_of_mem_of_not_mem hb hn)]

/-- A function for one of the events. -/
private theorem LinkedEvlist.Holds.visit {f : EvselCell → EvMem → Except LinkRing.Fault (EvselCell × EvMem)}
    {r : Evsel × List Syscall} (h : s.Holds ns lost evs) (hn : n ∈ ns)
    (hf : ∀ rest, s.mem.arrays.Owned ((s.evsels n).perThread.toList ++ rest) →
      ∃ c' m', f (s.evsels n) s.mem = .ok (c', m') ∧ Acted rest (s.evsels n) s.mem r c' m') :
    ∃ s', s.visit f (.evsel n) = .ok s' ∧ s'.Holds ns lost (Function.update evs n r.1) ∧ s'.mem.log = r.2 ∧
      s'.threads = s.threads ∧ s'.mem.maps = s.mem.maps := by
  obtain ⟨pre, post, rfl⟩ := List.append_of_mem hn
  have hnodup := h.nodup
  have hpre : n ∉ pre := by grind
  have hpost : n ∉ post := by grind
  obtain ⟨c', m', hcall, hacted⟩ :=
    hf _ (h.arrays.perm (filterMap_split (fun b => (s.evsels b).perThread) pre post n).symm)
  refine ⟨{ s with evsels := Function.update s.evsels n c', mem := m' }, ?_, ?_, hacted.log, rfl, hacted.maps⟩
  · simp only [LinkedEvlist.visit, LinkRing.Memory.deref_some (h.live hn), ok_bind, hcall]
    rfl
  · refine ⟨h.links, h.old, h.nrEntries, fun b hb => ?_, ?_, ?_, ?_⟩
    · by_cases hbn : b = n
      · subst hbn
        simpa using hacted.reads
      · have hb' : b ∈ pre ++ post := by grind
        simp only [Function.update_of_ne hbn]
        refine (h.reads b hb).frame (fun a _ => by rw [hacted.strings]) (fun a _ => by rw [hacted.maps])
          fun a ha => hacted.kept a ?_
        rw [← List.filterMap_append]
        exact List.mem_filterMap.2 ⟨b, hb', ha⟩
    · have hname : (fun b => (Function.update s.evsels n c' b).name) = fun b => (s.evsels b).name := by
        funext b
        by_cases hbn : b = n
        · rw [hbn, Function.update_self, hacted.name]
        · rw [Function.update_of_ne hbn]
      simpa only [hname, hacted.strings] using h.strings
    · refine hacted.owned.perm ((filterMap_split _ pre post n).trans ?_)
      simp only [Function.update_self, filterMap_update EvselCell.perThread hpre,
        filterMap_update EvselCell.perThread hpost]
      exact .rfl
    · simpa only [hacted.maps] using h.maps

/-- `f` does for a structure what `g` does for the event, if the event has the property `Pre`. -/
def Carries (maps : Store ThreadMap) (Pre : Evsel → Prop)
    (f : EvselCell → EvMem → Except LinkRing.Fault (EvselCell × EvMem))
    (g : Evsel → List Syscall → Evsel × List Syscall) : Prop :=
  ∀ c m ev rest, m.maps = maps → c.Reads m ev → Pre ev → m.arrays.Owned (c.perThread.toList ++ rest) →
    ∃ c' m', f c m = .ok (c', m') ∧ Acted rest c m (g ev m.log) c' m'

variable {maps : Store ThreadMap} {Pre : Evsel → Prop}
  {f : EvselCell → EvMem → Except LinkRing.Fault (EvselCell × EvMem)}
  {g : Evsel → List Syscall → Evsel × List Syscall}

/-- A function for some of the events, one after the other. -/
private theorem LinkedEvlist.Holds.visitAll (hfg : Carries maps Pre f g) (h : s.Holds ns lost evs)
    (hmaps : s.mem.maps = maps) (hqs : qs.Nodup) (hsub : ∀ q ∈ qs, q ∈ ns) (hpre : ∀ q ∈ qs, Pre (evs q)) :
    ∃ s' evs', (qs.map EvPlace.evsel).foldlM (LinkedEvlist.visit f) s = .ok s' ∧ s'.Holds ns lost evs' ∧
      qs.map evs' = (Profile.forEach g (qs.map evs) s.mem.log).1 ∧
      s'.mem.log = (Profile.forEach g (qs.map evs) s.mem.log).2 ∧ (∀ n, n ∉ qs → evs' n = evs n) ∧
      s'.threads = s.threads ∧ s'.mem.maps = maps := by
  induction qs generalizing s evs with
  | nil => exact ⟨s, evs, rfl, h, rfl, rfl, fun _ _ => rfl, rfl, hmaps⟩
  | cons q qs ih =>
    obtain ⟨hnot, hnodup⟩ := List.nodup_cons.1 hqs
    have hq : q ∈ ns := hsub q List.mem_cons_self
    obtain ⟨s₁, hcall, h₁, hlog, hthreads, hmaps₁⟩ := h.visit hq fun rest ho =>
      hfg _ _ _ rest hmaps (h.reads q hq) (hpre q List.mem_cons_self) ho
    have hpre₁ : ∀ b ∈ qs, Pre (Function.update evs q (g (evs q) s.mem.log).1 b) := by
      intro b hb
      rw [Function.update_of_ne (ne_of_mem_of_not_mem hb hnot)]
      exact hpre b (List.mem_cons_of_mem _ hb)
    obtain ⟨s₂, evs₂, hloop, h₂, hevs, hlog₂, hsame, hthreads₂, hmaps₂⟩ :=
      ih h₁ (hmaps₁.trans hmaps) hnodup (fun b hb => hsub b (List.mem_cons_of_mem _ hb)) hpre₁
    rw [hnodup.map_update, if_neg hnot, hlog] at hevs hlog₂
    refine ⟨s₂, evs₂, ?_, h₂, ?_, hlog₂, fun b hb => ?_, hthreads₂.trans hthreads, hmaps₂⟩
    · rw [List.map_cons, List.foldlM_cons, hcall, ok_bind, hloop]
    · rw [List.map_cons, hevs, hsame q hnot, Function.update_self]
      rfl
    · rw [hsame b fun hmem => hb (List.mem_cons_of_mem _ hmem),
        Function.update_of_ne fun heq : b = q => hb (heq ▸ List.mem_cons_self)]

/-- The loop over the events, in their order or from the last one on. -/
theorem LinkedEvlist.Holds.forEach (back : Bool) (hfg : Carries maps Pre f g) (h : s.Holds ns lost evs)
    (hmaps : s.mem.maps = maps) (hpre : ∀ n ∈ ns, Pre (evs n)) :
    ∃ s' evs', s.forEach back f = .ok (some s') ∧ s'.Holds ns lost evs' ∧
      (if back then ns.reverse else ns).map evs' =
        (Profile.forEach g ((if back then ns.reverse else ns).map evs) s.mem.log).1 ∧
      s'.mem.log = (Profile.forEach g ((if back then ns.reverse else ns).map evs) s.mem.log).2 ∧
      s'.threads = s.threads ∧ s'.mem.maps = maps := by
  have hmem : (EvPlace.head, ns.map EvPlace.evsel) ∈ [(EvPlace.head, ns.map EvPlace.evsel)] := List.mem_cons_self
  have hfuel : (ns.map EvPlace.evsel).length < s.nrEntries + 1 := by
    rw [List.length_map, h.nrEntries]
    exact Nat.lt_succ_self _
  have hwalk : (if back then listForEachPrev else listForEach) s.links .head (s.nrEntries + 1) =
      .ok (some ((if back then ns.reverse else ns).map EvPlace.evsel)) := by
    cases back with
    | false => exact h.links.listForEach hmem hfuel
    | true => simpa using h.links.listForEachPrev hmem hfuel
  have hnodup : (if back then ns.reverse else ns).Nodup := by
    cases back with
    | false => exact h.nodup
    | true => exact List.nodup_reverse.2 h.nodup
  have hsub : ∀ q ∈ if back then ns.reverse else ns, q ∈ ns := by
    cases back <;> simp
  obtain ⟨s', evs', hloop, h', hevs, hlog, -, hthreads, hmaps'⟩ :=
    h.visitAll hfg hmaps hnodup hsub fun q hq => hpre q (hsub q hq)
  refine ⟨s', evs', ?_, h', hevs, hlog, hthreads, hmaps'⟩
  simp only [LinkedEvlist.forEach, hwalk, ok_bind, hloop]
  rfl

end StubProfile.Profile
