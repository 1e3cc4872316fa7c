import Mathlib.Algebra.Group.Nat.Defs
import StubProfile.Tools.FuncMap

/-!
# The target functions and their ids

`CountUtil::getTargetFuncs` loads one function map for each user object and takes the ids of the functions that
match the pattern from the map of their object.  The ids of every map start at 0, while the target list, the range
and the counters are shared by the whole process.

The id of a function is its position among the names of its object (`mem_getTargetFuncs`), so two targets share an
id exactly when they stand at the same position of their lists, up to the 32 bits of an `unsigned`
(`uniqueIds_iff`).
-/

namespace StubProfile.Tools

open Interning

/-- What the tool sees of a `BPatch_object`: name, path, the function names of its modules, and the names of the
functions `findFunction` returns for a pattern. -/
structure Obj where
  name : CString
  path : CString
  modules : List (List CString)
  findFunction : CString → List CString

/-- A function of the process: the position of its object in the list of user objects, and its name. -/
@[ext] structure Func where
  obj : Nat
  name : CString
deriving DecidableEq, Repr

/-- `OSLIBPATH_PREFIX`. -/
def osLibPath : CString := "/lib/".toList

/-- `DYNINSTLIB_PREFIX`. -/
def dyninstLibPath : CString := "/home/jr/stubprofile/build/lib/".toList

def getUserObjs (allobjs : List Obj) : List Obj :=
  allobjs.filter fun obj => !(osLibPath.isPrefixOf obj.path || dyninstLibPath.isPrefixOf obj.path)

def Obj.funcMap (obj : Obj) : FuncMap := FuncMap.ofObject obj.name obj.path obj.modules

/-- `CountUtil::matchFuncs` on the object at position `i`: the targets it appends. -/
def matchFuncs (i : Nat) (obj : Obj) (fm : FuncMap) (pattern : CString) : List (TargetFunc Func) :=
  (obj.findFunction pattern).filterMap fun name =>
    let index := getFunctionID fm name
    if index = uintMax then none else some ⟨⟨i, name⟩, index⟩

/-- The loop of `getTargetFuncs` from the object at position `i` on; `env i` belongs to the load of that object. -/
def getTargetFuncsLoop (env : Nat → Env) (pattern : CString) (i : Nat) :
    List Obj → Fs → List (TargetFunc Func) → Except Fault (Bool × List (TargetFunc Func))
  | [], _, targets => .ok (true, targets)
  | obj :: objs, fs, targets =>
    match load (env i) (initSkipList []) false obj.funcMap fs with
    | .error e => .error e
    | .ok (false, _, _) => .ok (false, targets)
    | .ok (true, fm, fs₁) =>
      getTargetFuncsLoop env pattern (i + 1) objs fs₁ (targets ++ matchFuncs i obj fm pattern)

/-- `CountUtil::getTargetFuncs`, with `target_funcs` as it leaves it. -/
def getTargetFuncs (env : Nat → Env) (pattern : CString) (allobjs : List Obj) (fs : Fs) :
    Except Fault (Bool × List (TargetFunc Func)) :=
  match getTargetFuncsLoop env pattern 0 (getUserObjs allobjs) fs [] with
  | .error e => .error e
  | .ok (false, targets) => .ok (false, targets)
  | .ok (true, targets) => .ok (targets.length ≠ 0, targets)

/-! ### The names of each object -/

/-- The names an unforced load on an object gets: the lines of its cache file, or what Dyninst reports. -/
def namesLoaded (obj : Obj) (fs : Fs) : List CString :=
  match checkState obj.funcMap fs, fs.cache obj.name with
  | .cached, .file _ text => (cacheLines [] text false).toOption.getD []
  | _, _ => obj.modules.flatten

/-- The names of each object, where a load may find the cache file an earlier one has left. -/
def objNames (env : Nat → Env) (i : Nat) : List Obj → Fs → List (List CString)
  | [], _ => []
  | obj :: objs, fs =>
    namesLoaded obj fs ::
      match load (env i) (initSkipList []) false obj.funcMap fs with
      | .ok (_, _, fs₁) => objNames env (i + 1) objs fs₁
      | .error _ => []

/-- The function matches the pattern and stands at position `p` among the distinct names of its object, those of
the skip list left out. -/
def StandsAt (pattern : CString) (objs : List Obj) (names : List (List CString)) (f : Func) (p : Nat) : Prop :=
  ∃ obj ns, objs[f.obj]? = some obj ∧ names[f.obj]? = some ns ∧ f.name ∈ obj.findFunction pattern ∧
    f.name ∈ keptNames (initSkipList []) ns ∧ (keptNames (initSkipList []) ns).idxOf f.name = p

def UniqueIds (targets : List (TargetFunc Func)) : Prop :=
  ∀ f ∈ targets, ∀ g ∈ targets, f.func ≠ g.func → f.index ≠ g.index

/-- No two matched functions stand at the same position of their lists, counted modulo `2 ^ 32`.  (At the position
`UINT_MAX` they are taken for unknown and not targeted.) -/
def NoSharedPosition (pattern : CString) (objs : List Obj) (names : List (List CString)) : Prop :=
  ∀ f g p q, StandsAt pattern objs names f p → StandsAt pattern objs names g q → f ≠ g →
    p % 2 ^ 32 = q % 2 ^ 32 → p % 2 ^ 32 = 2 ^ 32 - 1

variable {env : Nat → Env} {pattern : CString} {objs allobjs : List Obj} {fs fs' : Fs} {obj : Obj} {fm : FuncMap}
  {targets targets' : List (TargetFunc Func)} {i : Nat} {e : Env}

private theorem load_object (h : load e (initSkipList []) false obj.funcMap fs = .ok (true, fm, fs')) :
    fm = obj.funcMap.withNames (keptNames (initSkipList []) (namesLoaded obj fs)) := by
  have hnew : obj.funcMap.IsNew := ⟨rfl, rfl⟩
  rcases load_cases h with ⟨hr, helf⟩ | ⟨-, -, hst, hcached⟩ | ⟨-, -, hfalse⟩
  · have hst : checkState obj.funcMap fs = .update := hr.resolve_left (by simp)
    have hnames : namesLoaded obj fs = obj.modules.flatten := by
      unfold namesLoaded
      rw [hst]
    have hfm : fm = addFunctions (initSkipList []) obj.funcMap obj.modules.flatten :=
      (congrArg (fun r => r.2.1) helf).symm
    rw [hfm, hnames, hnew.addFunctions]
  · obtain ⟨mtime, text, lines, hf, hl, rfl⟩ := loadFromCache_true hcached
    have hnames : namesLoaded obj fs = lines := by
      have hf' : fs.cache obj.name = .file mtime text := hf
      unfold namesLoaded
      rw [hst, hf']
      simp only [hl]
      rfl
    rw [hnames, hnew.addFunctions]
  · cases hfalse

/-! ### The target list -/

private theorem mem_matchFuncs {ns : List CString} {t : TargetFunc Func} :
    t ∈ matchFuncs i obj (fm.withNames ns) pattern ↔
      t.func.obj = i ∧ t.func.name ∈ obj.findFunction pattern ∧ t.func.name ∈ ns ∧
        t.index = UInt32.ofNat (ns.idxOf t.func.name) ∧ t.index ≠ uintMax := by
  unfold matchFuncs
  simp only [List.mem_filterMap, getFunctionID_withNames]
  constructor
  · rintro ⟨name, hname, ht⟩
    by_cases hm : name ∈ ns
    · simp only [hm, ↓reduceIte] at ht
      split at ht
      · cases ht
      · rename_i hne
        cases ht
        exact ⟨rfl, hname, hm, rfl, hne⟩
    · simp [hm] at ht
  · rintro ⟨hi, hname, hm, hidx, hne⟩
    refine ⟨t.func.name, hname, ?_⟩
    rw [hidx] at hne
    simp only [hm, ↓reduceIte, hne, Option.some.injEq]
    obtain ⟨⟨o, n⟩, x⟩ := t
    simp_all

private theorem mem_getTargetFuncsLoop
    (h : getTargetFuncsLoop env pattern i objs fs targets = .ok (true, targets')) (t : TargetFunc Func) :
    t ∈ targets' ↔ t ∈ targets ∨ ∃ k obj ns, objs[k]? = some obj ∧ (objNames env i objs fs)[k]? = some ns ∧
      t ∈ matchFuncs (i + k) obj (obj.funcMap.withNames (keptNames (initSkipList []) ns)) pattern := by
  induction objs generalizing i fs targets with
  | nil =>
    cases h
    simp
  | cons obj objs ih =>
    unfold getTargetFuncsLoop at h
    cases hl : load (env i) (initSkipList []) false obj.funcMap fs with
    | error e => simp [hl] at h
    | ok r =>
      obtain ⟨ok, fm, fs₁⟩ := r
      cases ok with
      | false => simp [hl] at h
      | true =>
        simp only [hl] at h
        have hfm := load_object hl
        subst hfm
        have hobj : objNames env i (obj :: objs) fs = namesLoaded obj fs :: objNames env (i + 1) objs fs₁ := by
          simp only [objNames, hl]
        rw [ih h, List.mem_append, or_assoc, hobj]
        refine or_congr Iff.rfl ?_
        constructor
        · rintro (ht | ⟨k, o, ns, ho, hn, ht⟩)
          · exact ⟨0, obj, namesLoaded obj fs, rfl, rfl, ht⟩
          · refine ⟨k + 1, o, ns, by simpa using ho, by simpa using hn, ?_⟩
            rwa [← Nat.add_assoc, Nat.add_right_comm]
        · rintro ⟨k, o, ns, ho, hn, ht⟩
          cases k with
          | zero =>
            simp only [List.getElem?_cons_zero, Option.some.injEq] at ho hn
            subst ho
            subst hn
            exact .inl ht
          | succ k =>
            refine .inr ⟨k, o, ns, by simpa using ho, by simpa using hn, ?_⟩
            rwa [Nat.add_right_comm, Nat.add_assoc]

/-- The targets are the matched functions with their positions as ids. -/
theorem mem_getTargetFuncs (h : getTargetFuncs env pattern allobjs fs = .ok (true, targets)) (t : TargetFunc Func) :
    t ∈ targets ↔
      (∃ p, StandsAt pattern (getUserObjs allobjs) (objNames env 0 (getUserObjs allobjs) fs) t.func p ∧
        t.index = UInt32.ofNat p) ∧ t.index ≠ uintMax := by
  have hloop : getTargetFuncsLoop env pattern 0 (getUserObjs allobjs) fs [] = .ok (true, targets) := by
    unfold getTargetFuncs at h
    cases hl : getTargetFuncsLoop env pattern 0 (getUserObjs allobjs) fs [] with
    | error e => simp [hl] at h
    | ok r =>
      obtain ⟨ok, targets'⟩ := r
      cases ok with
      | false => simp [hl] at h
      | true =>
        simp only [hl, Except.ok.injEq, Prod.mk.injEq] at h
        rw [h.2]
  rw [mem_getTargetFuncsLoop hloop]
  simp only [List.not_mem_nil, false_or, Nat.zero_add, mem_matchFuncs]
  constructor
  · rintro ⟨k, obj, ns, ho, hn, rfl, hfind, hmem, hidx, hne⟩
    exact ⟨⟨_, ⟨obj, ns, ho, hn, hfind, hmem, rfl⟩, hidx⟩, hne⟩
  · rintro ⟨⟨p, ⟨obj, ns, ho, hn, hfind, hmem, rfl⟩, hidx⟩, hne⟩
    exact ⟨_, obj, ns, ho, hn, rfl, hfind, hmem, hidx, hne⟩

private theorem ofNat_eq_iff {p q : Nat} : UInt32.ofNat p = UInt32.ofNat q ↔ p % 2 ^ 32 = q % 2 ^ 32 := by
  rw [← UInt32.toNat_inj, UInt32.toNat_ofNat', UInt32.toNat_ofNat']

private theorem ofNat_eq_uintMax_iff {p : Nat} : UInt32.ofNat p = uintMax ↔ p % 2 ^ 32 = 2 ^ 32 - 1 := by
  rw [← UInt32.toNat_inj, UInt32.toNat_ofNat']
  rfl

/-- The ids of the targets are unique exactly when no two matched functions share a position. -/
theorem uniqueIds_iff (h : getTargetFuncs env pattern allobjs fs = .ok (true, targets)) :
    UniqueIds targets ↔
      NoSharedPosition pattern (getUserObjs allobjs) (objNames env 0 (getUserObjs allobjs) fs) := by
  constructor
  · intro hu f g p q hf hg hne hpq
    by_contra hmax
    have hp : UInt32.ofNat p ≠ uintMax := fun he => hmax (ofNat_eq_uintMax_iff.1 he)
    have hq : UInt32.ofNat q ≠ uintMax := fun he => hmax (hpq.trans (ofNat_eq_uintMax_iff.1 he))
    have hft := (mem_getTargetFuncs h ⟨f, UInt32.ofNat p⟩).2 ⟨⟨p, hf, rfl⟩, hp⟩
    have hgt := (mem_getTargetFuncs h ⟨g, UInt32.ofNat q⟩).2 ⟨⟨q, hg, rfl⟩, hq⟩
    exact hu _ hft _ hgt hne (ofNat_eq_iff.2 hpq)
  · intro hn s hs t ht hne he
    obtain ⟨⟨p, hp, hsp⟩, hmax⟩ := (mem_getTargetFuncs h s).1 hs
    obtain ⟨⟨q, hq, htq⟩, -⟩ := (mem_getTargetFuncs h t).1 ht
    have hpq : p % 2 ^ 32 = q % 2 ^ 32 := by
      rw [← ofNat_eq_iff, ← hsp, ← htq]
      exact he
    rw [hsp] at hmax
    exact hmax (ofNat_eq_uintMax_iff.2 (hn _ _ p q hp hq hne hpq))

def freshFs : Fs := ⟨fun _ => some ⟨0, []⟩, fun _ => .absent⟩

def goodEnv : Nat → Env := fun _ => Env.good 0

/-- The C library, which is filtered out, a program and a library of its own. -/
def threeObjs : List Obj :=
  [⟨"libc.so".toList, "/lib/libc.so".toList, [["printf".toList]], fun _ => ["printf".toList]⟩,
    ⟨"prog".toList, "/bin/prog".toList, [["_init".toList, "main".toList], ["usage".toList]], fun _ => ["main".toList]⟩,
    ⟨"libwork.so".toList, "/opt/libwork.so".toList, [["open".toList, "work".toList]], fun _ => ["work".toList]⟩]

/-- The matched functions of the two user objects stand at different positions. -/
theorem uniqueIds_two_objects :
    getTargetFuncs goodEnv "(main|work)".toList threeObjs freshFs =
        .ok (true, [⟨⟨0, "main".toList⟩, 0⟩, ⟨⟨1, "work".toList⟩, 1⟩]) ∧
      UniqueIds [⟨⟨0, "main".toList⟩, 0⟩, ⟨⟨1, "work".toList⟩, 1⟩] := by
  have hrun : getTargetFuncs goodEnv "(main|work)".toList threeObjs freshFs =
      .ok (true, [⟨⟨0, "main".toList⟩, 0⟩, ⟨⟨1, "work".toList⟩, 1⟩]) := rfl
  have hstands : ∀ f p, StandsAt "(main|work)".toList (getUserObjs threeObjs)
      (objNames goodEnv 0 (getUserObjs threeObjs) freshFs) f p →
      f = ⟨0, "main".toList⟩ ∧ p = 0 ∨ f = ⟨1, "work".toList⟩ ∧ p = 1 := by
    rintro ⟨k, name⟩ p ⟨obj, ns, hobj, hns, hfind, -, rfl⟩
    match k with
    | 0 =>
      cases hobj
      cases hns
      cases List.mem_singleton.1 hfind
      exact .inl ⟨rfl, rfl⟩
    | 1 =>
      cases hobj
      cases hns
      cases List.mem_singleton.1 hfind
      exact .inr ⟨rfl, rfl⟩
    | k + 2 => cases hobj
  refine ⟨hrun, (uniqueIds_iff hrun).2 fun f g p q hf hg hne hpq => ?_⟩
  obtain ⟨rfl, rfl⟩ | ⟨rfl, rfl⟩ := hstands f p hf
  · obtain ⟨rfl, rfl⟩ | ⟨rfl, rfl⟩ := hstands g q hg
    · exact absurd rfl hne
    · exact absurd hpq (by decide)
  · obtain ⟨rfl, rfl⟩ | ⟨rfl, rfl⟩ := hstands g q hg
    · exact absurd hpq (by decide)
    · exact absurd rfl hne

/-- A program and a library of its own: the first function of either object has the id 0. -/
theorem ids_shared_by_two_objects :
    ∃ targets, getTargetFuncs goodEnv "(.*)".toList
        [⟨"prog".toList, "/bin/prog".toList, [["main".toList]], fun _ => ["main".toList]⟩,
          ⟨"libwork.so".toList, "/opt/libwork.so".toList, [["work".toList]], fun _ => ["work".toList]⟩] freshFs =
          .ok (true, targets) ∧
      targets = [⟨⟨0, "main".toList⟩, 0⟩, ⟨⟨1, "work".toList⟩, 0⟩] ∧ ¬ UniqueIds targets := by
  refine ⟨[⟨⟨0, "main".toList⟩, 0⟩, ⟨⟨1, "work".toList⟩, 0⟩], rfl, rfl, ?_⟩
  intro h
  exact h ⟨⟨0, "main".toList⟩, 0⟩ (by simp) ⟨⟨1, "work".toList⟩, 0⟩ (by simp) (by decide) rfl

end StubProfile.Tools
