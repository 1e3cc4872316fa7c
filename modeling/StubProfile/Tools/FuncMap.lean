import Mathlib.Logic.Function.Basic
import StubProfile.Lib.Interning
import StubProfile.Lib.Lines
import StubProfile.Tools.TargetRange

/-!
# Function maps and their cache files

`FuncMap` numbers the functions of an object.  The names come from the ELF file through Dyninst, or from a cache
file in `FUNCMAP_DIR` that an earlier load wrote, one name a line; `load` decides which of the two by the
modification times.

The file system has two parts: the ELF files by their path, and the cache files by the name of the object (the
part of the path after `FUNCMAP_DIR`).  What Dyninst reports for an ELF file is a function of its contents, so the
contents are the lists of function names of its modules.  The outcomes of the system calls a load makes are an
argument of the functions (`Env`).

A C string is the list of its characters, which are never `NUL`.
-/

namespace StubProfile.Tools

open Interning Lines

abbrev CString : Type := List Char

def funcNameMax : Nat := 256

/-- Where the C++ code is undefined, and the one file the model does not read. -/
inductive Fault where
  | emptyString -- `str[len - 1]` with `len` equal to 0
  | nullPointer -- a member function called through a null pointer
  | hole -- a cache file that was written behind its end, with `NUL`s before
deriving DecidableEq, Repr

/-! ### The map -/

/-- `class FuncMap`; of the `BPatch_object` the code uses the modules, as the lists of their function names. -/
structure FuncMap where
  elfName : CString
  elfPath : CString
  obj : Option (List (List CString))
  funcs : List CString
  funcIndices : CString → Option UInt32

/-- The names `initSkipList` inserts into the set `skiplist`. -/
def initialSkipList : List CString :=
  ["_init".toList, "_fini".toList, "__popcountdi2".toList, "__do_global_dtors_aux".toList]

/-- `initSkipList`: fills the static `skiplist` unless it is filled already. -/
def initSkipList (skiplist : List CString) : List CString :=
  if skiplist.length > 0 then skiplist else initialSkipList

/-- `FuncMap::FuncMap(std::string name, std::string path)`, which also runs `initSkipList`. -/
def FuncMap.ofNamePath (name path : CString) : FuncMap := ⟨name, path, none, [], fun _ => none⟩

/-- `FuncMap::FuncMap(string path)`, which leaves `skiplist` alone: the name is what follows the last `/`. -/
def FuncMap.ofPath (path : CString) : FuncMap :=
  ⟨(path.reverse.takeWhile (· ≠ '/')).reverse, path, none, [], fun _ => none⟩

/-- `FuncMap::FuncMap(BPatch_object *target)`, which also runs `initSkipList`. -/
def FuncMap.ofObject (name path : CString) (modules : List (List CString)) : FuncMap :=
  ⟨name, path, some modules, [], fun _ => none⟩

def addFunction (skiplist : List CString) (fm : FuncMap) (func : CString) : FuncMap :=
  if (fm.funcIndices func).isSome then fm
  else if func ∈ skiplist then fm
  else
    { fm with
      funcs := fm.funcs ++ [func]
      funcIndices := Function.update fm.funcIndices func (some (UInt32.ofNat fm.funcs.length)) }

/-- `addFunction` in a loop. -/
def addFunctions (skiplist : List CString) (fm : FuncMap) (names : List CString) : FuncMap :=
  names.foldl (addFunction skiplist) fm

def getFunctionID (fm : FuncMap) (func : CString) : UInt32 := (fm.funcIndices func).getD uintMax

/-! ### The file system -/

/-- An ELF file: its modification time in seconds, and the function names of its modules. -/
structure Elf where
  mtime : Nat
  modules : List (List CString)
deriving DecidableEq, Repr

/-- What `stat` finds for a cache file. -/
inductive Cache where
  | absent -- `ENOENT`
  | denied -- any other error
  | file (mtime : Nat) (text : List Char)
deriving DecidableEq, Repr

structure Fs where
  elf : CString → Option Elf
  cache : CString → Cache

/-- The time of a load and the outcomes of the calls it makes. -/
structure Env where
  now : Nat
  binaryOk : Bool -- `openBinary` and `getProcedures`
  readOk : Bool -- `fopen(.., "r")`
  dirOk : Bool -- `buildDir`
  writeOk : Bool -- `fopen(.., "w")`
  -- how much of the text has left the buffer of the stream, which is never closed; `none` for all of it
  flushed : Option Nat

/-- What of the text of the stream is in the file when the load returns. -/
def Env.written (env : Env) (text : List Char) : List Char :=
  match env.flushed with
  | none => text
  | some n => text.take n

/-- What of the text is still in the buffer. -/
def Env.unwritten (env : Env) (text : List Char) : List Char :=
  match env.flushed with
  | none => []
  | some n => text.drop n

theorem Env.written_append_unwritten (env : Env) (text : List Char) : env.written text ++ env.unwritten text = text := by
  unfold Env.written Env.unwritten
  cases env.flushed with
  | none => exact List.append_nil text
  | some n => exact List.take_append_drop n text

/-- All calls succeed and the text is flushed. -/
def Env.good (now : Nat) : Env := ⟨now, true, true, true, true, none⟩

inductive CacheState where
  | cached | update | enoelf | ecache
deriving DecidableEq, Repr

def checkState (fm : FuncMap) (fs : Fs) : CacheState :=
  match fs.elf fm.elfPath with
  | none => .enoelf
  | some elf =>
    match fs.cache fm.elfName with
    | .absent => .update
    | .denied => .ecache
    | .file mtime text =>
      if elf.mtime > mtime then .update
      else if text.length = 0 then .update
      else .cached

/-- The loop of `loadFromCache`: the strings it passes to `addFunction`.  `str` is the buffer, which `fgets` leaves
alone when it reads nothing, and `eof` the end-of-file flag of the stream, with `rest` still to read. -/
def cacheLines (str : CString) (rest : List Char) (eof : Bool) : Except Fault (List CString) :=
  if eof then .ok []
  else
    let chunk := readLine '\n' (funcNameMax - 1) rest
    let str₁ := if chunk.line = [] then str else chunk.line
    match str₁.getLast? with
    | none => .error .emptyString
    | some c =>
      let str₂ := if c = '\n' then str₁.dropLast else str₁
      (cacheLines str₂ chunk.rest chunk.eof).map (str₂ :: ·)
termination_by if eof then 0 else rest.length + 1
decreasing_by
  rename_i heof
  simp only [heof]
  by_cases h : (readLine '\n' (funcNameMax - 1) rest).eof = true
  · simp [h]
  · have h' : (readLine '\n' (funcNameMax - 1) rest).eof = false := by simpa using h
    have := readLine_progress (by decide) h'
    simp only [h', Bool.false_eq_true, ↓reduceIte]
    omega

def loadFromCache (env : Env) (skiplist : List CString) (fm : FuncMap) (fs : Fs) : Except Fault (Bool × FuncMap) :=
  match fs.cache fm.elfName with
  | .file _ text =>
    if env.readOk then
      match cacheLines [] text false with
      | .ok lines => .ok (true, addFunctions skiplist fm lines)
      | .error e => .error e
    else .ok (false, fm)
  | _ => .ok (false, fm)

def cacheText (fm : FuncMap) : List Char := unlines '\n' fm.funcs

def updateCache (env : Env) (fm : FuncMap) (fs : Fs) : Bool × Fs :=
  if !env.dirOk then (false, fs)
  else if !env.writeOk then (false, fs)
  else (true, { fs with cache := Function.update fs.cache fm.elfName (.file env.now (env.written (cacheText fm))) })

/-- The names `loadFromELF` passes to `addFunction`, if it gets that far. -/
def elfNames (env : Env) (fm : FuncMap) (fs : Fs) : Option (List CString) :=
  match fm.obj with
  | none =>
    if env.binaryOk then (fs.elf fm.elfPath).map fun elf => elf.modules.flatten else none
  | some modules => some modules.flatten

def loadFromELF (env : Env) (skiplist : List CString) (fm : FuncMap) (fs : Fs) : Bool × FuncMap × Fs :=
  match elfNames env fm fs with
  | none => (false, fm, fs)
  | some names =>
    let fm₁ := addFunctions skiplist fm names
    ((updateCache env fm₁ fs).1, fm₁, (updateCache env fm₁ fs).2)

def load (env : Env) (skiplist : List CString) (force : Bool) (fm : FuncMap) (fs : Fs) :
    Except Fault (Bool × FuncMap × Fs) :=
  if force then .ok (loadFromELF env skiplist fm fs)
  else
    match checkState fm fs with
    | .cached =>
      match loadFromCache env skiplist fm fs with
      | .ok (ok, fm₁) => .ok (ok, fm₁, fs)
      | .error e => .error e
    | .update => .ok (loadFromELF env skiplist fm fs)
    | _ => .ok (false, fm, fs)

/-! ### The map as a list of names -/

/-- The index of a name in a list, as `func_indices` keeps it. -/
def indexIn (names : List CString) (func : CString) : Option UInt32 :=
  if func ∈ names then some (UInt32.ofNat (names.idxOf func)) else none

def FuncMap.withNames (fm : FuncMap) (names : List CString) : FuncMap :=
  { fm with funcs := names, funcIndices := indexIn names }

/-- The names a map holds after it was filled from a list. -/
def keptNames (skiplist names : List CString) : List CString := internAll [] (names.filter (· ∉ skiplist))

variable {skiplist names : List CString} {fm : FuncMap}

def FuncMap.IsNew (fm : FuncMap) : Prop := fm.funcs = [] ∧ fm.funcIndices = fun _ => none

private theorem FuncMap.IsNew.withNames_nil (h : fm.IsNew) : fm.withNames [] = fm := by
  obtain ⟨hf, hi⟩ := h
  cases fm
  subst hf
  subst hi
  rfl

private theorem indexIn_concat {func : CString} (h : func ∉ names) :
    indexIn (names ++ [func]) =
      Function.update (indexIn names) func (some (UInt32.ofNat names.length)) := by
  funext g
  by_cases hg : g = func
  · subst hg
    simp [indexIn, List.idxOf_append, h]
  · by_cases hm : g ∈ names
    · simp [indexIn, List.idxOf_append, hm, hg]
    · simp [indexIn, hm, hg]

/-- `addFunction` interns the names outside the skip list. -/
private theorem addFunction_withNames (func : CString) :
    addFunction skiplist (fm.withNames names) func =
      fm.withNames (if func ∈ skiplist then names else intern names func) := by
  unfold addFunction intern
  by_cases hm : func ∈ names
  · simp [FuncMap.withNames, indexIn, hm]
  · have hnone : indexIn names func = none := by simp [indexIn, hm]
    by_cases hs : func ∈ skiplist
    · simp [FuncMap.withNames, hnone, hs]
    · simp only [FuncMap.withNames, hnone, hs, hm, Option.isSome_none, Bool.false_eq_true, ↓reduceIte,
        indexIn_concat hm]

theorem addFunctions_withNames (l : List CString) :
    addFunctions skiplist (fm.withNames names) l =
      fm.withNames (internAll names (l.filter (· ∉ skiplist))) := by
  induction l generalizing names with
  | nil => rfl
  | cons func l ih =>
    show addFunctions skiplist (addFunction skiplist (fm.withNames names) func) l = _
    rw [addFunction_withNames, ih]
    by_cases hs : func ∈ skiplist
    · simp [hs]
    · simp [hs]

/-- A new map filled from a list holds the distinct names outside the skip list. -/
theorem FuncMap.IsNew.addFunctions (h : fm.IsNew) (l : List CString) :
    addFunctions skiplist fm l = fm.withNames (keptNames skiplist l) := by
  conv_lhs => rw [← h.withNames_nil]
  rw [addFunctions_withNames]
  rfl

theorem mem_keptNames {func : CString} : func ∈ keptNames skiplist names ↔ func ∈ names ∧ func ∉ skiplist := by
  simp [keptNames, mem_internAll]

/-- Filling a map from the names of another one that was filled with a smaller skip list. -/
theorem keptNames_keptNames {s : List CString} (hs : ∀ func ∈ s, func ∈ skiplist) :
    keptNames skiplist (keptNames s names) = keptNames skiplist names := by
  unfold keptNames
  rw [filter_internAll, List.filter_filter]
  have hfilter : (names.filter fun a => (decide (a ∉ skiplist) && decide (a ∉ s))) = names.filter (· ∉ skiplist) := by
    apply List.filter_congr
    intro a _
    by_cases ha : a ∈ skiplist
    · simp [ha]
    · have : a ∉ s := fun h => ha (hs a h)
      simp [ha, this]
  rw [hfilter]
  exact internAll_of_nodup (by simpa using nodup_internAll List.nodup_nil)

theorem keptNames_append {l l' : List CString} (h : ∀ func ∈ l', func ∈ l) :
    keptNames skiplist (l ++ l') = keptNames skiplist l := by
  unfold keptNames
  rw [List.filter_append, internAll_append]
  apply internAll_of_subset
  intro func hf
  obtain ⟨hl', hs⟩ := List.mem_filter.1 hf
  exact mem_internAll.2 (.inr (List.mem_filter.2 ⟨h func hl', hs⟩))

theorem getFunctionID_withNames (func : CString) :
    getFunctionID (fm.withNames names) func =
      if func ∈ names then UInt32.ofNat (names.idxOf func) else uintMax := by
  unfold getFunctionID FuncMap.withNames indexIn
  by_cases h : func ∈ names <;> simp [h]

/-! ### What a load does -/

def ReadsElf (force : Bool) (fm : FuncMap) (fs : Fs) : Prop := force = true ∨ checkState fm fs = .update

instance (force : Bool) (fm : FuncMap) (fs : Fs) : Decidable (ReadsElf force fm fs) :=
  inferInstanceAs (Decidable (_ ∨ _))

variable {env : Env} {force ok : Bool} {fm' : FuncMap} {fs fs' : Fs}

theorem checkState_cached (h : checkState fm fs = .cached) :
    ∃ elf mtime text, fs.elf fm.elfPath = some elf ∧ fs.cache fm.elfName = .file mtime text ∧
      elf.mtime ≤ mtime ∧ text ≠ [] := by
  unfold checkState at h
  cases he : fs.elf fm.elfPath with
  | none => simp [he] at h
  | some elf =>
    cases hf : fs.cache fm.elfName with
    | absent => simp [he, hf] at h
    | denied => simp [he, hf] at h
    | file mtime text =>
      simp only [he, hf, gt_iff_lt, List.length_eq_zero_iff] at h
      split at h
      · cases h
      · rename_i hold
        split at h
        · cases h
        · rename_i hne
          exact ⟨elf, mtime, text, rfl, rfl, Nat.not_lt.1 hold, hne⟩

theorem loadFromCache_true (h : loadFromCache env skiplist fm fs = .ok (true, fm')) :
    ∃ mtime text lines, fs.cache fm.elfName = .file mtime text ∧ cacheLines [] text false = .ok lines ∧
      fm' = addFunctions skiplist fm lines := by
  unfold loadFromCache at h
  cases hf : fs.cache fm.elfName with
  | absent => simp [hf] at h
  | denied => simp [hf] at h
  | file mtime text =>
    simp only [hf] at h
    split at h
    · cases hl : cacheLines [] text false with
      | error e => simp [hl] at h
      | ok lines =>
        simp only [hl] at h
        cases h
        exact ⟨mtime, text, lines, rfl, hl, rfl⟩
    · cases h

theorem load_cases (h : load env skiplist force fm fs = .ok (ok, fm', fs')) :
    (ReadsElf force fm fs ∧ loadFromELF env skiplist fm fs = (ok, fm', fs')) ∨
    (¬ ReadsElf force fm fs ∧ fs' = fs ∧ checkState fm fs = .cached ∧
      loadFromCache env skiplist fm fs = .ok (ok, fm')) ∨
    (¬ ReadsElf force fm fs ∧ fs' = fs ∧ ok = false) := by
  unfold load at h
  by_cases hf : force = true
  · simp only [hf, ↓reduceIte, Except.ok.injEq] at h
    exact .inl ⟨.inl hf, h⟩
  · have hno : checkState fm fs ≠ .update → ¬ ReadsElf force fm fs := fun hs => not_or.2 ⟨hf, hs⟩
    simp only [hf] at h
    cases hs : checkState fm fs with
    | cached =>
      rw [hs] at h
      refine .inr (.inl ⟨hno (by simp [hs]), ?_⟩)
      cases hl : loadFromCache env skiplist fm fs with
      | error e => simp [hl] at h
      | ok r =>
        simp only [hl] at h
        cases h
        exact ⟨rfl, rfl, rfl⟩
    | update =>
      rw [hs] at h
      exact .inl ⟨.inr hs, Except.ok.inj h⟩
    | enoelf =>
      rw [hs] at h
      cases h
      exact .inr (.inr ⟨hno (by simp [hs]), rfl, rfl⟩)
    | ecache =>
      rw [hs] at h
      cases h
      exact .inr (.inr ⟨hno (by simp [hs]), rfl, rfl⟩)

end StubProfile.Tools
