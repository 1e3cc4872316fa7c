import StubProfile.Tools.FuncMap

/-!
# The constructors of a function map

The names that no map numbers are in the static set `skiplist`, which is empty when a process starts.  Two of the three
constructors of `FuncMap` fill it, `FuncMap(string path)` does not.  So the names of the skip list get numbers in a
process that only builds maps from paths, like that of the `funcmap` command, and all functions behind them have other
numbers there than in the processes that instrument them.
-/

namespace StubProfile.Tools

open Interning

/-- The three constructors; a `BPatch_object` has a name, a path and modules. -/
inductive Constructor where
  | namePath (name elfPath : CString)
  | path (elfPath : CString)
  | object (name elfPath : CString) (modules : List (List CString))

/-- The constructor runs `initSkipList`. -/
def Constructor.fills : Constructor → Bool
  | .namePath _ _ => true
  | .path _ => false
  | .object _ _ _ => true

/-- `skiplist` after a constructor. -/
def Constructor.skipAfter (skiplist : List CString) (c : Constructor) : List CString :=
  if c.fills then if skiplist.length = 0 then initSkipList skiplist else skiplist else skiplist

def Constructor.build : Constructor → FuncMap
  | .namePath name elfPath => .ofNamePath name elfPath
  | .path elfPath => .ofPath elfPath
  | .object name elfPath modules => .ofObject name elfPath modules

/-- A map is built in a process that has built the maps `earlier` before, and filled by `loadFromELF`. -/
def buildAndLoad (env : Env) (fs : Fs) (earlier : List Constructor) (c : Constructor) : FuncMap :=
  (loadFromELF env (c.skipAfter (earlier.foldl Constructor.skipAfter [])) c.build fs).2.1

variable {env : Env} {fs : Fs} {names : List CString}

theorem Constructor.isNew_build (c : Constructor) : c.build.IsNew := by
  cases c <;> exact ⟨rfl, rfl⟩

/-- The skip list is empty or the initial one, by whether a constructor has filled it. -/
private theorem skipAfter_eq {skiplist : List CString} (h : skiplist = [] ∨ skiplist = initialSkipList)
    (c : Constructor) :
    c.skipAfter skiplist = if c.fills then initialSkipList else skiplist := by
  unfold Constructor.skipAfter
  obtain rfl | rfl := h
  · rfl
  · cases c.fills <;> rfl

private theorem foldl_skipAfter (cs : List Constructor) :
    cs.foldl Constructor.skipAfter [] = if cs.any Constructor.fills then initialSkipList else [] := by
  have hgen : ∀ skiplist, skiplist = [] ∨ skiplist = initialSkipList →
      cs.foldl Constructor.skipAfter skiplist = if cs.any Constructor.fills then initialSkipList else skiplist := by
    induction cs with
    | nil => exact fun _ _ => rfl
    | cons c cs ih =>
      intro skiplist h
      rw [List.foldl_cons, skipAfter_eq h, List.any_cons]
      cases hc : c.fills with
      | false => simpa using ih skiplist h
      | true => simpa using ih initialSkipList (.inr rfl)
  exact hgen [] (.inl rfl)

/-- The names a constructor's map is filled with. -/
private theorem buildAndLoad_eq (earlier : List Constructor) (c : Constructor)
    (h : elfNames env c.build fs = some names) :
    buildAndLoad env fs earlier c =
      c.build.withNames (keptNames (if (earlier ++ [c]).any Constructor.fills then initialSkipList else []) names) := by
  have hskip : c.skipAfter (earlier.foldl Constructor.skipAfter []) =
      if (earlier ++ [c]).any Constructor.fills then initialSkipList else [] := by
    rw [← foldl_skipAfter, List.foldl_append]
    rfl
  simp only [buildAndLoad, loadFromELF, h, hskip, c.isNew_build.addFunctions]

/-- A skip list makes no difference exactly if none of its names is reported. -/
private theorem indexIn_keptNames_eq_iff (skiplist : List CString) :
    indexIn (keptNames [] names) = indexIn (keptNames skiplist names) ↔ ∀ func ∈ names, func ∉ skiplist := by
  constructor
  · intro heq func hfunc hskip
    have hboth := congrFun heq func
    simp [indexIn, mem_keptNames, hfunc, hskip] at hboth
  · intro hnone
    have hsame : names.filter (· ∉ skiplist) = names.filter (· ∉ ([] : List CString)) :=
      List.filter_congr fun func hfunc => by simp [hnone func hfunc]
    rw [keptNames, keptNames, hsame]

/-- After the same earlier maps, a map from the path and one from an object or a name with the same functions agree
exactly if an earlier map has filled the skip list or no function is on it. -/
private theorem buildAndLoad_agree_iff (earlier : List Constructor) {path : CString} {c : Constructor}
    (hc : c.fills = true)
    (hpath : elfNames env (Constructor.path path).build fs = some names) (hother : elfNames env c.build fs = some names) :
    (buildAndLoad env fs earlier (.path path)).funcIndices = (buildAndLoad env fs earlier c).funcIndices ↔
      earlier.any Constructor.fills = true ∨ ∀ func ∈ names, func ∉ initialSkipList := by
  rw [buildAndLoad_eq earlier _ hpath, buildAndLoad_eq earlier _ hother]
  simp only [FuncMap.withNames, List.any_append, List.any_cons, List.any_nil, hc, Bool.or_true, Bool.or_false, ↓reduceIte]
  cases hearlier : earlier.any Constructor.fills with
  | true => simp [Constructor.fills]
  | false =>
    have hiff : indexIn (keptNames [] names) = _ ↔ _ := indexIn_keptNames_eq_iff initialSkipList
    simpa [Constructor.fills] using hiff

/-- In a fresh process the numbers of the functions do not depend on the constructor exactly if the ELF file has no
function with a name of the skip list. -/
theorem constructors_agree_iff (env : Env) (fs : Fs) (name path : CString) (elf : Elf) (modules : List (List CString))
    (hopen : env.binaryOk = true) (helf : fs.elf path = some elf) (horder : modules.flatten = elf.modules.flatten) :
    ((buildAndLoad env fs [] (.path path)).funcIndices =
        (buildAndLoad env fs [] (.object name path modules)).funcIndices ∧
      (buildAndLoad env fs [] (.path path)).funcIndices = (buildAndLoad env fs [] (.namePath name path)).funcIndices) ↔
    ∀ func ∈ elf.modules.flatten, func ∉ initialSkipList := by
  have hpath : elfNames env (Constructor.path path).build fs = some elf.modules.flatten := by
    simp [elfNames, Constructor.build, FuncMap.ofPath, hopen, helf]
  have hname : elfNames env (Constructor.namePath name path).build fs = some elf.modules.flatten := by
    simp [elfNames, Constructor.build, FuncMap.ofNamePath, hopen, helf]
  have hobject : elfNames env (Constructor.object name path modules).build fs = some elf.modules.flatten := by
    simp [elfNames, Constructor.build, FuncMap.ofObject, horder]
  rw [buildAndLoad_agree_iff [] rfl hpath hobject, buildAndLoad_agree_iff [] rfl hpath hname]
  simp

/-- An ELF file with the functions given, and no cache. -/
def oneElf (funcs : List String) : Fs :=
  ⟨fun path => if path = "/bin/p".toList then some ⟨0, [funcs.map String.toList]⟩ else none, fun _ => .absent⟩

/-- A program without start-up code. -/
theorem constructors_agree_plain :
    (buildAndLoad (.good 1) (oneElf ["main", "work"]) [] (.path "/bin/p".toList)).funcIndices =
      (buildAndLoad (.good 1) (oneElf ["main", "work"]) [] (.namePath "p".toList "/bin/p".toList)).funcIndices := by
  refine ((constructors_agree_iff (.good 1) (oneElf ["main", "work"]) "p".toList "/bin/p".toList _ _ rfl rfl rfl).2 ?_).2
  decide

/-- With `_init` in front, `main` has the number 1 in the map from the path and 0 in the one from the object. -/
theorem constructors_differ :
    getFunctionID (buildAndLoad (.good 1) (oneElf ["_init", "main"]) [] (.path "/bin/p".toList)) "main".toList = 1 ∧
      getFunctionID (buildAndLoad (.good 1) (oneElf ["_init", "main"]) []
        (.object "p".toList "/bin/p".toList [["_init".toList, "main".toList]])) "main".toList = 0 ∧
      (buildAndLoad (.good 1) (oneElf ["_init", "main"]) [] (.path "/bin/p".toList)).funcIndices ≠
        (buildAndLoad (.good 1) (oneElf ["_init", "main"]) []
          (.object "p".toList "/bin/p".toList [["_init".toList, "main".toList]])).funcIndices := by
  have hpath : (buildAndLoad (.good 1) (oneElf ["_init", "main"]) []
      (.path "/bin/p".toList)).funcIndices "main".toList = some 1 := by
    decide
  have hobject : (buildAndLoad (.good 1) (oneElf ["_init", "main"]) []
      (.object "p".toList "/bin/p".toList [["_init".toList, "main".toList]])).funcIndices "main".toList = some 0 := by
    decide
  refine ⟨by decide, by decide, fun heq => ?_⟩
  rw [heq, hobject] at hpath
  exact absurd hpath (by decide)

end StubProfile.Tools
