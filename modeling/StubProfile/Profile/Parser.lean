import Mathlib.Data.List.TakeWhile
import StubProfile.Profile.Evsel

/-!
# Parsing the event list

`prof_evlist__add_from_str` cuts its argument at the commas and adds an event for each piece that `prof_evsel__parse`
knows.  A comma in the last position ends the loop before `pcur` moves on, so the piece in front of it is parsed once
more behind the loop (`addFromStr_eq`).

The copies the parser works on are taken to be allocated.
-/

namespace StubProfile.Profile

/-! ### The known events -/

/-- `enum perf_hw_id`. -/
inductive HwId where
  | cpuCycles | instructions | cacheReferences | cacheMisses | branchInstructions | branchMisses | busCycles
deriving DecidableEq, Repr

def HwId.config : HwId → UInt64
  | .cpuCycles => 0
  | .instructions => 1
  | .cacheReferences => 2
  | .cacheMisses => 3
  | .branchInstructions => 4
  | .branchMisses => 5
  | .busCycles => 6

/-- `enum perf_hw_cache_id`, as far as it is used. -/
inductive HwCacheId where
  | l1d | l1i | ll | dtlb | itlb
deriving DecidableEq, Repr

def HwCacheId.config : HwCacheId → UInt64
  | .l1d => 0
  | .l1i => 1
  | .ll => 2
  | .dtlb => 3
  | .itlb => 4

inductive HwCacheOp where
  | read | write | prefetch
deriving DecidableEq, Repr

def HwCacheOp.config : HwCacheOp → UInt64
  | .read => 0
  | .write => 1
  | .prefetch => 2

inductive HwCacheResult where
  | access | miss
deriving DecidableEq, Repr

def HwCacheResult.config : HwCacheResult → UInt64
  | .access => 0
  | .miss => 1

def perfTypeHardware : UInt32 := 0

def perfTypeHwCache : UInt32 := 3

/-- `struct prof_pmu`; `is_support` is not used. -/
structure Pmu where
  name : List Char
  type : UInt32
  config : UInt64
deriving DecidableEq, Repr

def hardwarePmu (name : String) (id : HwId) : Pmu := ⟨name.toList, perfTypeHardware, id.config⟩

def cachePmu (name : String) (cache : HwCacheId) (op : HwCacheOp) (result : HwCacheResult) : Pmu :=
  ⟨name.toList, perfTypeHwCache, cache.config ||| (op.config <<< 8) ||| (result.config <<< 16)⟩

def pmuList : List Pmu :=
  [hardwarePmu "cpu-cycles" .cpuCycles,
   hardwarePmu "instructions" .instructions,
   hardwarePmu "cache-references" .cacheReferences,
   hardwarePmu "cache-misses" .cacheMisses,
   hardwarePmu "bus-cycles" .busCycles,
   hardwarePmu "branch-instructions" .branchInstructions,
   hardwarePmu "branch-misses" .branchMisses,
   cachePmu "l1d-read" .l1d .read .access,
   cachePmu "l1d-read-misses" .l1d .read .miss,
   cachePmu "l1d-write" .l1d .write .access,
   cachePmu "l1d-write-misses" .l1d .write .miss,
   cachePmu "l1d-prefetch" .l1d .prefetch .access,
   cachePmu "l1d-prefetch-misses" .l1d .prefetch .miss,
   cachePmu "l1i-read" .l1i .read .access,
   cachePmu "l1i-read-misses" .l1i .read .miss,
   cachePmu "l1i-write" .l1i .write .access,
   cachePmu "l1i-write-misses" .l1i .write .miss,
   cachePmu "l1i-prefetch" .l1i .prefetch .access,
   cachePmu "l1i-prefetch-misses" .l1i .prefetch .miss,
   cachePmu "ll-read" .ll .read .access,
   cachePmu "ll-read-misses" .ll .read .miss,
   cachePmu "ll-write" .ll .write .access,
   cachePmu "ll-write-misses" .ll .write .miss,
   cachePmu "ll-prefetch" .ll .prefetch .access,
   cachePmu "ll-prefetch-misses" .ll .prefetch .miss,
   cachePmu "dtlb-read" .dtlb .read .access,
   cachePmu "dtlb-read-misses" .dtlb .read .miss,
   cachePmu "dtlb-write" .dtlb .write .access,
   cachePmu "dtlb-write-misses" .dtlb .write .miss,
   cachePmu "dtlb-prefetch" .dtlb .prefetch .access,
   cachePmu "dtlb-prefetch-misses" .dtlb .prefetch .miss,
   cachePmu "itlb-read" .itlb .read .access,
   cachePmu "itlb-read-misses" .itlb .read .miss,
   cachePmu "itlb-write" .itlb .write .access,
   cachePmu "itlb-write-misses" .itlb .write .miss,
   cachePmu "itlb-prefetch" .itlb .prefetch .access,
   cachePmu "itlb-prefetch-misses" .itlb .prefetch .miss]

/-- `prof_pmu__find`. -/
def pmuFind (str : List Char) : Option Pmu := pmuList.find? fun pmu => str = pmu.name

/-! ### One event -/

/-- `strchr`: what stands before and behind the first `c`. -/
def strchr (c : Char) : List Char → Option (List Char × List Char)
  | [] => none
  | d :: s => if d = c then some ([], s) else (strchr c s).map fun p => (d :: p.1, p.2)

/-- The flags `user` and `kernel` of `__evsel__parse_opt` after its loop. -/
def optFlags (opt : List Char) : Bool × Bool :=
  opt.foldl (fun flags c => if c = 'u' then (true, flags.2) else if c = 'k' then (flags.1, true) else flags)
    (false, false)

/-- `__evsel__parse_opt`. -/
def parseOpt (opt : List Char) (attr : Attr) : Attr :=
  let (user, kernel) := optFlags opt
  if user && !kernel then { attr with excludeKernel := true }
  else if !user && kernel then { attr with excludeUser := true }
  else attr

/-- `prof_evsel__parse`: the name and the attributes. -/
def evselParse (str : List Char) : Option (List Char × Attr) :=
  -- the options are behind the colon, unless nothing stands there
  let (name, opt) := match strchr ':' str with
    | none => (str, none)
    | some (name, rest) => (name, if rest.length + 1 > 1 then some rest else none)
  match pmuFind name with
  | none => none
  | some pmu =>
    let attr : Attr := ⟨pmu.type, pmu.config, false, false⟩
    some (name, match opt with
      | none => attr
      | some opt => parseOpt opt attr)

/-! ### The list -/

/-- `struct prof_evlist` with its counter. -/
structure CountedEvlist extends Evlist where
  nrEntries : Nat
deriving DecidableEq, Repr

def CountedEvlist.new : CountedEvlist := ⟨⟨[], none⟩, 0⟩

/-- `__prof_evlist__add`. -/
def evlistAdd (l : CountedEvlist) (str : List Char) : Int × CountedEvlist :=
  match evselParse str with
  | none => (0, l)
  | some (name, attr) =>
    (1, { l with entries := l.entries ++ [evselNew name attr l.nrEntries], nrEntries := l.nrEntries + 1 })

theorem strchr_eq_some {c : Char} {s field rest : List Char} (h : strchr c s = some (field, rest)) :
    s = field ++ c :: rest ∧ c ∉ field := by
  induction s generalizing field with
  | nil => cases h
  | cons d s ih =>
    unfold strchr at h
    split at h
    · rename_i hd
      cases h
      simp [hd]
    · rename_i hd
      obtain ⟨⟨field', rest'⟩, hs, heq⟩ := Option.map_eq_some_iff.1 h
      cases heq
      obtain ⟨hsplit, hnot⟩ := ih hs
      exact ⟨by rw [hsplit, List.cons_append], by simpa [Ne.symm hd] using hnot⟩

private theorem strchr_eq_none {c : Char} {s : List Char} (h : strchr c s = none) : c ∉ s := by
  induction s with
  | nil => simp
  | cons d s ih =>
    unfold strchr at h
    split at h
    · cases h
    · rename_i hd
      simpa [Ne.symm hd] using ih (Option.map_eq_none_iff.1 h)

/-- The loop of `prof_evlist__add_from_str`: `pos` is `pcur - tmp` and `cur` the string at `pcur`.  What is left is
`pos`, the string at `pcur`, the count and the list. -/
def addLoop (len pos : Nat) (cur : List Char) (added : Int) (l : CountedEvlist) :
    Nat × List Char × Int × CountedEvlist :=
  match _h : strchr ',' cur with
  | none => (pos, cur, added, l)
  | some (field, next) =>
    let r := evlistAdd l field
    -- `pnext - tmp` is the last position
    if pos + field.length = len - 1 then (pos, field, added + r.1, r.2)
    else addLoop len (pos + field.length + 1) next (added + r.1) r.2
termination_by cur.length
decreasing_by
  rw [(strchr_eq_some _h).1, List.length_append, List.length_cons]
  omega

def einval : Int := 22

/-- `prof_evlist__add_from_str`. -/
def addFromStr (l : CountedEvlist) (str : List Char) : Int × CountedEvlist :=
  if str.length = 0 then (-einval, l)
  else
    let (pos, cur, added, l₁) := addLoop str.length 0 str 0 l
    if pos < str.length - 1 then (added + (evlistAdd l₁ cur).1, (evlistAdd l₁ cur).2) else (added, l₁)

/-! ### What the parser should do -/

/-- A field of the list: the event of the name before the first colon, with the options behind it. -/
def fieldEvent (field : List Char) : Option (List Char × Attr) :=
  let name := field.takeWhile (· ≠ ':')
  let options := (field.dropWhile (· ≠ ':')).drop 1
  (pmuList.find? fun pmu => name = pmu.name).map fun pmu =>
    (name, ⟨pmu.type, pmu.config, 'u' ∈ options ∧ 'k' ∉ options, 'k' ∈ options ∧ 'u' ∉ options⟩)

/-- The events are appended in order, with the numbers from `nr_entries` on, and counted. -/
def Appends (l : CountedEvlist) (events : List (List Char × Attr)) (r : Int × CountedEvlist) : Prop :=
  r.1 = events.length ∧ r.2.nrEntries = l.nrEntries + events.length ∧ r.2.threads = l.threads ∧
    r.2.entries = l.entries ++ events.mapIdx fun i event => evselNew event.1 event.2 (l.nrEntries + i)

private theorem optFlags_eq (opt : List Char) : optFlags opt = (decide ('u' ∈ opt), decide ('k' ∈ opt)) := by
  have hloop : ∀ flags : Bool × Bool, opt.foldl (fun flags c => if c = 'u' then (true, flags.2)
      else if c = 'k' then (flags.1, true) else flags) flags =
      (flags.1 || decide ('u' ∈ opt), flags.2 || decide ('k' ∈ opt)) := by
    induction opt with
    | nil => simp
    | cons c opt ih =>
      intro flags
      rw [List.foldl_cons, ih]
      by_cases hu : c = 'u'
      · simp [hu]
      · by_cases hk : c = 'k'
        · simp [hk]
        · simp [hu, hk, Ne.symm hu, Ne.symm hk]
  simpa [optFlags] using hloop (false, false)

private theorem strchr_eq (c : Char) (s : List Char) :
    strchr c s = if c ∈ s then some (s.takeWhile (· ≠ c), (s.dropWhile (· ≠ c)).drop 1) else none := by
  induction s with
  | nil => rfl
  | cons d s ih =>
    unfold strchr
    by_cases hd : d = c
    · simp [hd]
    · rw [if_neg hd, ih]
      by_cases hs : c ∈ s
      · simp [hs, hd]
      · simp [hs, Ne.symm hd]

private theorem parseOpt_eq (opt : List Char) (type : UInt32) (config : UInt64) :
    parseOpt opt ⟨type, config, false, false⟩ =
      ⟨type, config, 'u' ∈ opt ∧ 'k' ∉ opt, 'k' ∈ opt ∧ 'u' ∉ opt⟩ := by
  unfold parseOpt
  rw [optFlags_eq]
  by_cases hu : 'u' ∈ opt
  · by_cases hk : 'k' ∈ opt
    · simp [hu, hk]
    · simp [hu, hk]
  · by_cases hk : 'k' ∈ opt
    · simp [hu, hk]
    · simp [hu, hk]

private theorem evselParse_eq (field : List Char) : evselParse field = fieldEvent field := by
  unfold evselParse fieldEvent
  rw [strchr_eq]
  by_cases hcolon : ':' ∈ field
  · simp only [hcolon, if_true, pmuFind]
    cases pmuList.find? fun pmu => field.takeWhile (· ≠ ':') = pmu.name with
    | none => rfl
    | some pmu =>
      simp only [Option.map_some]
      cases (field.dropWhile (· ≠ ':')).drop 1 with
      | nil => rfl
      | cons c opt => simp [parseOpt_eq]
  · have htake : field.takeWhile (· ≠ ':') = field := by
      rw [List.takeWhile_eq_self_iff]
      intro c hc
      simpa using fun heq : c = ':' => hcolon (heq ▸ hc)
    have hdrop : field.dropWhile (· ≠ ':') = [] := by
      rw [List.dropWhile_eq_nil_iff]
      intro c hc
      simpa using fun heq : c = ':' => hcolon (heq ▸ hc)
    simp only [hcolon, if_false, pmuFind, htake, hdrop]
    cases pmuList.find? fun pmu => field = pmu.name with
    | none => rfl
    | some pmu => rfl

/-! ### The tokenizer -/

/-- `__prof_evlist__add` on one piece after the other. -/
def addAll (r : Int × CountedEvlist) (fields : List (List Char)) : Int × CountedEvlist :=
  fields.foldl (fun r field => (r.1 + (evlistAdd r.2 field).1, (evlistAdd r.2 field).2)) r

private theorem splitOn_field {field : List Char} (hfield : ',' ∉ field) (next : List Char) :
    (field ++ ',' :: next).splitOn ',' = field :: next.splitOn ',' := by
  rw [List.splitOn_eq_splitOnP, List.splitOnP_append_cons _ _ (by simp), List.splitOnP_eq_singleton, List.singleton_append]
  · rfl
  · intro c hc
    simpa using fun heq : c = ',' => hfield (heq ▸ hc)

private theorem splitOn_single {field : List Char} (hfield : ',' ∉ field) : field.splitOn ',' = [field] := by
  rw [List.splitOn_eq_splitOnP, List.splitOnP_eq_singleton]
  intro c hc
  simpa using fun heq : c = ',' => hfield (heq ▸ hc)

/-- The loop leaves the last field to the code behind it; with a comma in the last position that is the field in
front of this comma, which was added already. -/
private theorem addLoop_eq (cur : List Char) (hcur : cur ≠ []) (len pos : Nat) (hlen : pos + cur.length = len)
    (added : Int) (l : CountedEvlist) :
    (∀ t, cur = t ++ [','] → ∃ init last, t.splitOn ',' = init ++ [last] ∧ last.length < cur.length ∧
      addLoop len pos cur added l = (len - 1 - last.length, last, addAll (added, l) (init ++ [last]))) ∧
    ((∀ t, cur ≠ t ++ [',']) → ∃ init last, cur.splitOn ',' = init ++ [last] ∧ last.length ≤ cur.length ∧
      addLoop len pos cur added l = (len - last.length, last, addAll (added, l) init)) := by
  fun_induction addLoop len pos cur added l with
  | case1 pos cur added l hnone =>
    have hno := strchr_eq_none hnone
    refine ⟨fun t ht => absurd (by simp [ht]) hno, fun _ => ⟨[], cur, splitOn_single hno, Nat.le_refl _, ?_⟩⟩
    simp only [addAll, List.foldl_nil, Prod.mk.injEq, and_true]
    omega
  | case2 pos cur added l field next hsome r hend =>
    -- the comma in the last position
    obtain ⟨rfl, hfield⟩ := strchr_eq_some hsome
    rw [List.length_append, List.length_cons] at hlen
    obtain rfl : next = [] := List.eq_nil_of_length_eq_zero (by omega)
    refine ⟨fun t ht => ?_, fun hno => absurd rfl (hno field)⟩
    obtain rfl : field = t := (List.append_inj' ht rfl).1
    refine ⟨[], field, splitOn_single hfield, by simp, ?_⟩
    simp only [addAll, List.nil_append, List.foldl_cons, List.foldl_nil, Prod.mk.injEq]
    exact ⟨by simp at hlen; omega, trivial, rfl, rfl⟩
  | case3 pos cur added l field next hsome r hend ih =>
    obtain ⟨rfl, hfield⟩ := strchr_eq_some hsome
    rw [List.length_append, List.length_cons] at hlen
    have hnext : next ≠ [] := by
      rintro rfl
      simp at hlen
      omega
    obtain ⟨ih₁, ih₂⟩ := ih hnext (by omega)
    constructor
    · intro t ht
      obtain ⟨t', d, hconcat⟩ := (List.eq_nil_or_concat next).resolve_left hnext
      rw [List.concat_eq_append] at hconcat
      subst hconcat
      have hsplit : field ++ ',' :: t' ++ [d] = t ++ [','] := by simpa using ht
      obtain ⟨rfl, hd⟩ := List.append_inj' hsplit rfl
      obtain rfl : d = ',' := by simpa using hd
      obtain ⟨init, last, hinit, hlast, hres⟩ := ih₁ t' rfl
      exact ⟨field :: init, last, by rw [splitOn_field hfield, hinit, List.cons_append], by simp at hlast ⊢; omega, hres⟩
    · intro hno
      obtain ⟨init, last, hinit, hlast, hres⟩ := ih₂ fun t ht => hno (field ++ ',' :: t) (by simp [ht])
      exact ⟨field :: init, last, by rw [splitOn_field hfield, hinit, List.cons_append], by simp; omega, hres⟩

/-! ### The list after a call -/

private theorem evlistAdd_appends (l : CountedEvlist) (field : List Char) :
    Appends l (fieldEvent field).toList (evlistAdd l field) := by
  unfold evlistAdd
  rw [evselParse_eq]
  cases fieldEvent field with
  | none => simp [Appends]
  | some event => simp [Appends]

private theorem Appends.trans {l : CountedEvlist} {evs₁ evs₂ : List (List Char × Attr)} {r₁ r₂ : Int × CountedEvlist}
    (h₁ : Appends l evs₁ r₁) (h₂ : Appends r₁.2 evs₂ r₂) : Appends l (evs₁ ++ evs₂) (r₁.1 + r₂.1, r₂.2) := by
  obtain ⟨hn₁, hnr₁, hth₁, hen₁⟩ := h₁
  obtain ⟨hn₂, hnr₂, hth₂, hen₂⟩ := h₂
  refine ⟨by simp [hn₁, hn₂], by simp [hnr₁, hnr₂]; omega, hth₂.trans hth₁, ?_⟩
  rw [hen₂, hen₁, List.append_assoc, List.mapIdx_append, hnr₁]
  simp only [Nat.add_assoc, Nat.add_comm evs₁.length]

theorem addAll_appends {l : CountedEvlist} {events : List (List Char × Attr)} {r : Int × CountedEvlist}
    (h : Appends l events r) (fields : List (List Char)) :
    Appends l (events ++ fields.filterMap fieldEvent) (addAll r fields) := by
  induction fields generalizing events r with
  | nil => simpa [addAll] using h
  | cons field fields ih =>
    have hfield := ih (h.trans (evlistAdd_appends r.2 field))
    have hevents : (field :: fields).filterMap fieldEvent = (fieldEvent field).toList ++ fields.filterMap fieldEvent := by
      cases hf : fieldEvent field with
      | none => simp [hf]
      | some event => simp [hf]
    rw [hevents, ← List.append_assoc]
    exact hfield

/-- No event has a name of less than two characters. -/
private theorem fieldEvent_short {field : List Char} (h : field.length ≤ 1) : fieldEvent field = none := by
  have hnames : ∀ pmu ∈ pmuList, 2 ≤ pmu.name.length := by decide +kernel
  have hshort : (field.takeWhile (· ≠ ':')).length ≤ 1 := (List.takeWhile_sublist _).length_le.trans h
  unfold fieldEvent
  rw [Option.map_eq_none_iff, List.find?_eq_none]
  intro pmu hpmu hname
  have hlen := hnames pmu hpmu
  rw [← of_decide_eq_true hname] at hlen
  omega

theorem appends_nil (l : CountedEvlist) : Appends l [] (0, l) := by simp [Appends]

theorem addFromStr_plain (l : CountedEvlist) {s : List Char} (hs : s ≠ []) (hno : ∀ t, s ≠ t ++ [',']) :
    Appends l ((s.splitOn ',').filterMap fieldEvent) (addFromStr l s) := by
  obtain ⟨init, last, hinit, hlen, hloop⟩ := (addLoop_eq s hs s.length 0 (Nat.zero_add _) 0 l).2 hno
  have hpos : 0 < s.length := List.length_pos_iff.2 hs
  unfold addFromStr
  rw [if_neg (by omega), hloop, hinit]
  simp only
  split
  · have hall := addAll_appends (appends_nil l) (init ++ [last])
    rw [addAll, List.foldl_append] at hall
    exact hall
  · -- a single character is not parsed
    have hshort : fieldEvent last = none := fieldEvent_short (by omega)
    have hall := addAll_appends (appends_nil l) init
    simpa [hshort] using hall

/-- With a comma in the last position the field in front of it is added once more. -/
private theorem addFromStr_trailing (l : CountedEvlist) (t : List Char) :
    ∃ last, (t.splitOn ',').getLast? = some last ∧
      Appends l (((t ++ [',']).splitOn ',').filterMap fieldEvent ++ (fieldEvent last).toList)
        (addFromStr l (t ++ [','])) := by
  obtain ⟨init, last, hinit, hlen, hloop⟩ :=
    (addLoop_eq (t ++ [',']) (by simp) (t ++ [',']).length 0 (Nat.zero_add _) 0 l).1 t rfl
  have hsplit : (t ++ [',']).splitOn ',' = init ++ [last] ++ [[]] := by
    rw [List.splitOn_eq_splitOnP, List.splitOnP_append_cons _ _ (by simp), ← List.splitOn_eq_splitOnP, hinit]
    rfl
  have hempty : fieldEvent [] = none := fieldEvent_short (by simp)
  have hevents : (init ++ [last] ++ [[]]).filterMap fieldEvent = (init ++ [last]).filterMap fieldEvent := by
    rw [List.filterMap_append, List.filterMap_cons_none hempty, List.filterMap_nil, List.append_nil]
  refine ⟨last, by simp [hinit], ?_⟩
  unfold addFromStr
  rw [if_neg (by simp), hloop, hsplit, hevents]
  simp only
  split
  · have hall := (addAll_appends (appends_nil l) (init ++ [last])).trans
      (evlistAdd_appends (addAll (0, l) (init ++ [last])).2 last)
    rwa [List.nil_append] at hall
  · have hnil : last = [] := List.eq_nil_of_length_eq_zero (by omega)
    have hall := addAll_appends (appends_nil l) (init ++ [last])
    simpa [hempty, hnil] using hall

/-- What a call leaves in a new list is the list `prof_init` starts with. -/
theorem Appends.eq_evlistOfParsed {events : List (List Char × Attr)} {r : Int × CountedEvlist}
    (h : Appends CountedEvlist.new events r) : r.2.toEvlist = evlistOfParsed events := by
  obtain ⟨-, -, hth, hen⟩ := h
  have hen' : r.2.entries = events.mapIdx fun i event => evselNew event.1 event.2 i := by
    simpa [CountedEvlist.new] using hen
  show Evlist.mk r.2.entries r.2.threads = _
  rw [hen', hth]
  rfl

/-! ### Series of calls -/

/-- The counter and the numbers of the events follow the list. -/
def Numbered (l : CountedEvlist) : Prop :=
  l.nrEntries = l.entries.length ∧ ∀ (i : Nat) (ev : Evsel), l.entries[i]? = some ev → ev.idx = i

private theorem Appends.numbered {l : CountedEvlist} {events : List (List Char × Attr)} {r : Int × CountedEvlist}
    (h : Appends l events r) (hl : Numbered l) : Numbered r.2 := by
  obtain ⟨-, hnr, -, hen⟩ := h
  refine ⟨by rw [hnr, hen, hl.1]; simp, fun i ev hev => ?_⟩
  rw [hen, List.getElem?_append] at hev
  split at hev
  · exact hl.2 i ev hev
  · rename_i hi
    rw [List.getElem?_mapIdx, Option.map_eq_some_iff] at hev
    obtain ⟨event, -, rfl⟩ := hev
    simp only [evselNew, hl.1]
    omega

private theorem addFromStr_numbered {l : CountedEvlist} (hl : Numbered l) (s : List Char) :
    Numbered (addFromStr l s).2 := by
  by_cases hs : s = []
  · simpa [hs, addFromStr] using hl
  · by_cases htrail : ∃ t, s = t ++ [',']
    · obtain ⟨t, rfl⟩ := htrail
      obtain ⟨last, -, happ⟩ := addFromStr_trailing l t
      exact happ.numbered hl
    · exact (addFromStr_plain l hs fun t ht => htrail ⟨t, ht⟩).numbered hl

private theorem foldl_addFromStr_numbered {l : CountedEvlist} (hl : Numbered l) (strs : List (List Char)) :
    Numbered (strs.foldl (fun l s => (addFromStr l s).2) l) := by
  induction strs generalizing l with
  | nil => exact hl
  | cons s strs ih => exact ih (addFromStr_numbered hl s)

end StubProfile.Profile
