import StubProfile.Tools.Edit

/-!
# Tracing a process

`TracerTest` attaches to a process, loads `libprofile` into it, has it call `prof_init` with the range of the indices,
inserts the calls at the end and the counting calls, and lets it run until it terminates.  When something fails before
that, `destroy` calls `removeInstrumentation` for the functions in `trace_funcs` and detaches from the process, which goes
on.

A process that runs to its end makes exactly the counting calls of the targets at the points it passes, and their indices
are in the range that `prof_init` was called with (`tracer_counts`).  After a failure nothing is ever taken out:
`removeInstrumentation` asks the hybrid analysis of the process about each snippet it finds, and a process that was
attached in the normal mode has none.  So the tracer crashes there unless no target has a snippet, and then the process
goes on as it was, or with the one call of `prof_thread_exit` in `pthread_exit` (`tracer_leaves`).
-/

namespace StubProfile.Tools

def symInit : CString := "prof_init".toList
def symExit : CString := "prof_exit".toList
def symThreadExit : CString := "prof_thread_exit".toList
def symCountPre : CString := "prof_count_pre".toList
def symCountPost : CString := "prof_count_post".toList
def symFini : CString := "_fini".toList
def symPthreadExit : CString := "pthread_exit".toList

/-- Whether `string::find` finds the text. -/
def strFind (text : CString) : CString → Bool
  | [] => text.isEmpty
  | c :: s => text.isPrefixOf (c :: s) || strFind text s

/-- `TracerTest::getUserObjects`. -/
def getUserObjects (allobjs : List Obj) : List Obj :=
  allobjs.filter fun obj => !(osLibPath.isPrefixOf obj.path || strFind "dyninst".toList obj.name)

/-- What Dyninst and the process do for a `TracerTest`.  The functions of the user objects are among those of the image
(`embed`).  `initRet` is what the call of `prof_init` returns, or `none` if it is not executed; `terminated` says whether
the process has terminated when `process` has failed. -/
structure TracerEnv (φ : Type) where
  attachOk : Bool
  load : Nat → Env
  fs : Fs
  pattern : CString
  allobjs : List Obj
  embed : Func → φ
  img : Image φ
  accepts : Nat → Bool
  lib : Option Obj
  initRet : Option Int
  continueOk : Bool
  terminated : Bool

variable {φ : Type}

/-- `TracerTest::init` when the process is attached, with `trace_funcs`. -/
def tracerInit (env : TracerEnv φ) : Except Fault (Bool × List (TargetFunc φ)) :=
  match getTargetFuncsLoop env.load env.pattern 0 (getUserObjects env.allobjs) env.fs [] with
  | .error e => .error e
  | .ok (false, _) => .ok (false, [])
  | .ok (true, targets) => .ok (targets.length ≠ 0, targets.map fun tf => ⟨env.embed tf.func, tf.index⟩)

/-- `TracerTest::callInit`: the range of the call, if it succeeds. -/
def callInit (env : TracerEnv φ) (lib : Obj) (targets : List (TargetFunc φ)) : Option IdRange :=
  if (findFunction lib symInit).isNone then none
  else
    match env.initRet with
    | none => none
    | some ret => if ret = -1 then none else some (calculateRange targets)

/-- `TracerTest::insertExit`; what `insertFiniCallback` returns is not looked at. -/
def tracerInsertExit (env : TracerEnv φ) (lib : Obj) (targets : List (TargetFunc φ)) (s : Space φ) :
    Bool × List (TargetFunc φ) × Space φ :=
  if (findFunction lib symExit).isNone then (false, targets, s)
  else
    match callbackLoop env.img env.accepts (fun obj => ⟨.fini obj, .exit⟩) env.img.isSharedLib false
      (env.img.findFunction symFini) targets s with
    | (_, targets, s) =>
      let (ok, s) := insertThreadExit env.img env.accepts symPthreadExit (findFunction lib symThreadExit).isSome s
      (ok, targets, s)

/-- `TracerTest::insertCount`. -/
def tracerInsertCount (env : TracerEnv φ) (lib : Obj) (targets : List (TargetFunc φ)) (s : Space φ) : Bool × Space φ :=
  if (findFunction lib symCountPre).isNone || (findFunction lib symCountPost).isNone then (false, s)
  else insertCount env.img env.accepts targets s

/-- A process that is traced: `trace_funcs`, the range of the successful call of `prof_init`, and the snippets. -/
structure Tracing (φ : Type) where
  targets : List (TargetFunc φ)
  range : Option IdRange
  space : Space φ

/-- `TracerTest::process`.  If it returns `true`, the process has run with the snippets until it terminated. -/
def tracerProcess (env : TracerEnv φ) (targets : List (TargetFunc φ)) : Bool × Tracing φ :=
  match env.lib with
  | none => (false, ⟨targets, none, ⟨[], 0⟩⟩)
  | some lib =>
    match callInit env lib targets with
    | none => (false, ⟨targets, none, ⟨[], 0⟩⟩)
    | some range =>
      match tracerInsertExit env lib targets ⟨[], 0⟩ with
      | (false, targets, s) => (false, ⟨targets, some range, s⟩)
      | (true, targets, s) =>
        match tracerInsertCount env lib targets s with
        | (false, s) => (false, ⟨targets, some range, s⟩)
        | (true, s) => (env.continueOk, ⟨targets, some range, s⟩)

section Main

variable [DecidableEq φ]

/-- Whether the snippet is at a point of the function. -/
def Image.carries (img : Image φ) (f : φ) (snippet : Snippet φ) : Bool :=
  match snippet.site with
  | .entry g => f = g
  | .exit g => f = g
  | .init _ => false
  | .fini obj => img.callbackIn f obj

/-- `BPatch_function::removeInstrumentation` in a process attached in the normal mode: for the first snippet at a point of
the function it goes through the null pointer `getHybridAnalysis()`, before it deletes anything. -/
def removeInstrumentation (img : Image φ) (f : φ) (s : Space φ) : Except Fault (Space φ) :=
  if s.snippets.any (img.carries f) then .error .nullPointer else .ok s

/-- `TracerTest::clearSnippets` on a process that has not terminated. -/
def clearSnippets (img : Image φ) : List (TargetFunc φ) → Space φ → Except Fault (Space φ)
  | [], s => .ok s
  | tf :: targets, s =>
    match removeInstrumentation img tf.func s with
    | .error e => .error e
    | .ok s => clearSnippets img targets s

/-- What becomes of the process: it has terminated, with the snippets or before the tracer was through, or it goes on
without the tracer. -/
inductive Ending (φ : Type) where
  | notAttached
  | ran (range : Option IdRange) (snippets : List (Snippet φ))
  | gone
  | detached (snippets : List (Snippet φ))
deriving DecidableEq, Repr

/-- `main` for the command `tracer`, from `init` on: what it returns, and what becomes of the process. -/
def tracerMain (env : TracerEnv φ) : Except Fault (Nat × Ending φ) :=
  if !env.attachOk then .ok (1, .notAttached)
  else
    match tracerInit env with
    | .error e => .error e
    | .ok (false, _) => .ok (1, .detached [])
    | .ok (true, targets) =>
      match tracerProcess env targets with
      | (true, t) => .ok (0, .ran t.range t.space.snippets)
      | (false, t) =>
        if env.terminated then .ok (1, .gone)
        else
          match clearSnippets env.img t.targets t.space with
          | .error e => .error e
          | .ok s => .ok (1, .detached s.snippets)

end Main

/-! ### The snippets that are inserted -/

variable {img : Image φ} {accepts : Nat → Bool} {env : TracerEnv φ} {lib : Obj} {targets targets' : List (TargetFunc φ)}
  {s s' : Space φ} {ok : Bool} {t : Tracing φ}

/-- An insertion adds the snippet or nothing. -/
private theorem Space.insert_frame {snippet : Snippet φ} (h : s.insert accepts snippet = (ok, s')) :
    s'.snippets = (if ok then [snippet] else []) ++ s.snippets := by
  unfold Space.insert at h
  split at h
  · cases h
    rfl
  · cases h
    rfl

/-- Each callback that the loop inserts belongs to a target without an index that it adds. -/
private theorem callbackLoop_frame {snippet : CString → Snippet φ} {skip : φ → Bool} {strict : Bool} {funcs : List φ}
    (h : callbackLoop img accepts snippet skip strict funcs targets s = (ok, targets', s')) :
    ∃ added new, targets' = targets ++ added ∧ s'.snippets = new ++ s.snippets ∧
      (∀ tf ∈ added, tf.index = uintMax ∧ tf.func ∈ funcs) ∧
      ∀ sn ∈ new, ∃ tf ∈ added, sn = snippet (img.object tf.func) := by
  induction funcs generalizing targets s with
  | nil =>
    cases h
    exact ⟨[], [], by simp⟩
  | cons f funcs ih =>
    unfold callbackLoop at h
    split at h
    · obtain ⟨added, new, htargets, hsnippets, hadded, hnew⟩ := ih h
      exact ⟨added, new, htargets, hsnippets, fun tf htf => ⟨(hadded tf htf).1, by simp [(hadded tf htf).2]⟩, hnew⟩
    · cases hinsert : s.insert accepts (snippet (img.object f)) with
      | mk ok₁ s₁ =>
        have hs₁ := Space.insert_frame hinsert
        simp only [hinsert] at h
        split at h
        · next hstop =>
          cases h
          simp only [Bool.and_eq_true, Bool.not_eq_true'] at hstop
          exact ⟨[], [], by simp [hs₁, hstop.2]⟩
        · obtain ⟨added, new, htargets, hsnippets, hadded, hnew⟩ := ih h
          refine ⟨⟨f, uintMax⟩ :: added, new ++ if ok₁ then [snippet (img.object f)] else [], by simp [htargets],
            by simp [hsnippets, hs₁], ?_, ?_⟩
          · intro tf htf
            rcases List.mem_cons.1 htf with rfl | htf
            · exact ⟨rfl, by simp⟩
            · exact ⟨(hadded tf htf).1, by simp [(hadded tf htf).2]⟩
          · intro sn hsn
            rcases List.mem_append.1 hsn with hsn | hsn
            · obtain ⟨tf, htf, hsn⟩ := hnew sn hsn
              exact ⟨tf, by simp [htf], hsn⟩
            · cases ok₁ with
              | false => cases hsn
              | true => exact ⟨⟨f, uintMax⟩, by simp, by simpa using hsn⟩

private theorem insertThreadExit_frame {pattern : CString} {found : Bool}
    (h : insertThreadExit img accepts pattern found s = (ok, s')) :
    ∃ new, s'.snippets = new ++ s.snippets ∧
      (new = [] ∨ ∃ f, (img.findFunction pattern).head? = some f ∧ new = [⟨.entry f, .threadExit⟩]) := by
  unfold insertThreadExit at h
  cases hfuncs : img.findFunction pattern with
  | nil =>
    simp only [hfuncs] at h
    cases h
    exact ⟨[], rfl, .inl rfl⟩
  | cons f funcs =>
    simp only [hfuncs] at h
    split_ifs at h with hentry hfound
    · cases h
      exact ⟨[], rfl, .inl rfl⟩
    · cases h
      exact ⟨[], rfl, .inl rfl⟩
    · refine ⟨_, Space.insert_frame h, ?_⟩
      cases ok with
      | false => exact .inl rfl
      | true => exact .inr ⟨f, rfl, rfl⟩

/-- Targets without an index are not counted. -/
private theorem countSnippets_append_uintMax {added : List (TargetFunc φ)} (hadded : ∀ tf ∈ added, tf.index = uintMax) :
    countSnippets img (targets ++ added) = countSnippets img targets := by
  have hnone : added.filter (Counted img) = [] := by
    rw [List.filter_eq_nil_iff]
    intro tf htf
    simp [Counted, hadded tf htf]
  rw [countSnippets, countSnippets, List.filter_append, hnone, List.append_nil]

/-- What the tracer has done when `prof_init` has been called: `fini` and `texit` are the snippets for the end, `count`
the counting calls inserted so far. -/
structure Traced (env : TracerEnv φ) (targets : List (TargetFunc φ)) (t : Tracing φ)
    (count texit fini : List (Snippet φ)) (added : List (TargetFunc φ)) : Prop where
  init_ok : ∃ ret, env.initRet = some ret ∧ ret ≠ -1
  range_eq : t.range = some (calculateRange targets)
  targets_eq : t.targets = targets ++ added
  mem_added : ∀ tf ∈ added, tf.index = uintMax ∧ tf.func ∈ env.img.findFunction symFini
  snippets_eq : t.space.snippets = count.reverse ++ (texit ++ fini)
  count_prefix : count <+: countSnippets env.img targets
  texit_eq : texit = [] ∨
    ∃ f, (env.img.findFunction symPthreadExit).head? = some f ∧ texit = [⟨.entry f, .threadExit⟩]
  mem_fini : ∀ sn ∈ fini, ∃ tf ∈ added, sn = ⟨.fini (env.img.object tf.func), .exit⟩

private theorem callInit_eq_some {range : IdRange} (h : callInit env lib targets = some range) :
    (∃ ret, env.initRet = some ret ∧ ret ≠ -1) ∧ range = calculateRange targets := by
  unfold callInit at h
  split at h
  · cases h
  · cases hret : env.initRet with
    | none => simp [hret] at h
    | some ret =>
      simp only [hret] at h
      split at h
      · cases h
      · next hne =>
        cases h
        exact ⟨⟨ret, rfl, hne⟩, rfl⟩

private theorem tracerInsertExit_frame {range : IdRange} (hinit : callInit env lib targets = some range)
    (h : tracerInsertExit env lib targets ⟨[], 0⟩ = (ok, targets', s)) :
    ∃ texit fini added, Traced env targets ⟨targets', some range, s⟩ [] texit fini added := by
  obtain ⟨hret, rfl⟩ := callInit_eq_some hinit
  unfold tracerInsertExit at h
  split at h
  · cases h
    exact ⟨[], [], [], hret, rfl, by simp, by simp, rfl, List.nil_prefix, .inl rfl, by simp⟩
  · cases hloop : callbackLoop env.img env.accepts (fun obj => (⟨.fini obj, .exit⟩ : Snippet φ)) env.img.isSharedLib false
      (env.img.findFunction symFini) targets ⟨[], 0⟩ with
    | mk ok₁ r =>
      obtain ⟨targets₁, s₁⟩ := r
      obtain ⟨added, fini, htargets, hs₁, hadded, hfini⟩ := callbackLoop_frame hloop
      simp only [hloop] at h
      cases hexit : insertThreadExit env.img env.accepts symPthreadExit (findFunction lib symThreadExit).isSome s₁ with
      | mk ok₂ s₂ =>
        obtain ⟨texit, hs₂, htexit⟩ := insertThreadExit_frame hexit
        simp only [hexit, Prod.mk.injEq] at h
        obtain ⟨-, rfl, rfl⟩ := h
        exact ⟨texit, fini, added, hret, rfl, htargets, hadded, by simp [hs₂, hs₁], List.nil_prefix, htexit, hfini⟩

private theorem tracerInsertCount_frame (h : tracerInsertCount env lib targets s = (ok, s')) :
    ∃ count, count <+: countSnippets env.img targets ∧ s'.snippets = count.reverse ++ s.snippets ∧
      (ok = true → count = countSnippets env.img targets) := by
  unfold tracerInsertCount at h
  split at h
  · cases h
    exact ⟨[], List.nil_prefix, rfl, fun hok => by cases hok⟩
  · obtain ⟨count, hprefix, hs', hall⟩ := insertAll_spec env.accepts (countSnippets env.img targets) s
    rw [insertCount_eq] at h
    rw [h] at hs' hall
    exact ⟨count, hprefix, hs', hall⟩

/-- What `process` can do: nothing before `prof_init` succeeds; then the snippets up to a failure. -/
theorem tracerProcess_cases (h : tracerProcess env targets = (ok, t)) :
    (ok = false ∧ t.space.snippets = []) ∨
      ∃ count texit fini added, Traced env targets t count texit fini added ∧
        (ok = true → count = countSnippets env.img targets) := by
  unfold tracerProcess at h
  cases hlib : env.lib with
  | none =>
    simp only [hlib] at h
    cases h
    exact .inl ⟨rfl, rfl⟩
  | some lib =>
    simp only [hlib] at h
    cases hinit : callInit env lib targets with
    | none =>
      simp only [hinit] at h
      cases h
      exact .inl ⟨rfl, rfl⟩
    | some range =>
      simp only [hinit] at h
      refine .inr ?_
      cases hexit : tracerInsertExit env lib targets ⟨[], 0⟩ with
      | mk ok₁ r =>
        obtain ⟨targets₁, s₁⟩ := r
        obtain ⟨texit, fini, added, htraced⟩ := tracerInsertExit_frame hinit hexit
        simp only [hexit] at h
        cases ok₁ with
        | false =>
          cases h
          exact ⟨[], texit, fini, added, htraced, fun hok => by cases hok⟩
        | true =>
          cases hcount : tracerInsertCount env lib targets₁ s₁ with
          | mk ok₂ s₂ =>
            obtain ⟨count, hprefix, hs₂, hall⟩ := tracerInsertCount_frame hcount
            have htargets : countSnippets env.img targets₁ = countSnippets env.img targets := by
              rw [show targets₁ = targets ++ added from htraced.targets_eq]
              exact countSnippets_append_uintMax fun tf htf => (htraced.mem_added tf htf).1
            rw [htargets] at hprefix hall
            have hs₁ : s₁.snippets = texit ++ fini := htraced.snippets_eq
            have htraced' : Traced env targets ⟨targets₁, some range, s₂⟩ count texit fini added :=
              { htraced with snippets_eq := by rw [hs₂, hs₁], count_prefix := hprefix }
            simp only [hcount] at h
            cases ok₂ with
            | false =>
              cases h
              exact ⟨count, texit, fini, added, htraced', fun hok => by cases hok⟩
            | true =>
              cases h
              exact ⟨count, texit, fini, added, htraced', fun _ => hall rfl⟩

/-- The indices of the targets that have one are in the range. -/
private theorem mem_calculateRange {tf : TargetFunc φ} (htf : tf ∈ targets) (hmax : tf.index ≠ uintMax) :
    (calculateRange targets).min ≤ tf.index ∧ tf.index ≤ (calculateRange targets).max := by
  have hrange : calculateRange targets = calculateRange (targets.filter (·.index ≠ uintMax)) := by
    unfold calculateRange
    rw [List.foldl_filter]
    congr
    funext r f
    by_cases hf : f.index = uintMax
    · simp [hf, calculateRangeStep]
    · simp [hf]
  have hmem : tf ∈ targets.filter (·.index ≠ uintMax) := by simp [htf, hmax]
  obtain ⟨-, -, hbounds⟩ := calculateRange_spec (List.ne_nil_of_mem hmem) fun f hf => by simpa using (List.mem_filter.1 hf).2
  rw [hrange]
  exact hbounds tf hmem

/-! ### What is left in the process -/

section Left

variable [DecidableEq φ] {count texit fini : List (Snippet φ)} {added : List (TargetFunc φ)} {ret : Nat}
  {left snippets : List (Snippet φ)} {range : Option IdRange}

/-- The snippets stay, or some target carries one of them. -/
private theorem clearSnippets_eq (img : Image φ) (targets : List (TargetFunc φ)) (s : Space φ) :
    clearSnippets img targets s =
      if ∃ tf ∈ targets, ∃ sn ∈ s.snippets, img.carries tf.func sn = true then .error .nullPointer else .ok s := by
  induction targets with
  | nil => simp [clearSnippets]
  | cons tf targets ih =>
    unfold clearSnippets removeInstrumentation
    by_cases hcarries : ∃ sn ∈ s.snippets, img.carries tf.func sn = true
    · have hany : s.snippets.any (img.carries tf.func) = true := List.any_eq_true.2 hcarries
      rw [if_pos hany, if_pos ⟨tf, by simp, hcarries⟩]
    · have hany : ¬s.snippets.any (img.carries tf.func) = true := fun h => hcarries (List.any_eq_true.1 h)
      simp only [if_neg hany, ih, List.mem_cons, exists_eq_or_imp, hcarries, false_or]

/-- A counting call is at a point of its target. -/
private theorem carries_of_mem_countSnippets {sn : Snippet φ} (h : sn ∈ countSnippets img targets) :
    ∃ tf ∈ targets, img.carries tf.func sn = true := by
  simp only [countSnippets, List.mem_flatMap, List.mem_filter, List.mem_cons, List.not_mem_nil, or_false] at h
  obtain ⟨tf, ⟨htf, -⟩, hsn⟩ := h
  refine ⟨tf, htf, ?_⟩
  rcases hsn with rfl | rfl
  · simp [Image.carries]
  · simp [Image.carries]

/-- No target carries a snippet exactly if there is none but the call in `pthread_exit`, which is no target. -/
private theorem Traced.not_carried_iff (h : Traced env targets t count texit fini added)
    (hfini : ∀ f ∈ env.img.findFunction symFini, env.img.callbackIn f (env.img.object f) = true) :
    (¬∃ tf ∈ t.targets, ∃ sn ∈ t.space.snippets, env.img.carries tf.func sn = true) ↔
      t.space.snippets = [] ∨ ∃ f, (env.img.findFunction symPthreadExit).head? = some f ∧
        t.space.snippets = [⟨.entry f, .threadExit⟩] ∧ ∀ tf ∈ t.targets, tf.func ≠ f := by
  constructor
  · intro hno
    have hcount : count = [] := by
      refine List.eq_nil_iff_forall_not_mem.2 fun sn hsn => hno ?_
      obtain ⟨tf, htf, hcarries⟩ := carries_of_mem_countSnippets (h.count_prefix.subset hsn)
      exact ⟨tf, by simp [h.targets_eq, htf], sn, by simp [h.snippets_eq, hsn], hcarries⟩
    have hcallbacks : fini = [] := by
      refine List.eq_nil_iff_forall_not_mem.2 fun sn hsn => hno ?_
      obtain ⟨tf, htf, rfl⟩ := h.mem_fini sn hsn
      exact ⟨tf, by simp [h.targets_eq, htf], ⟨.fini (env.img.object tf.func), .exit⟩, by simp [h.snippets_eq, hsn],
        hfini tf.func (h.mem_added tf htf).2⟩
    have hsnippets : t.space.snippets = texit := by simp [h.snippets_eq, hcount, hcallbacks]
    rcases h.texit_eq with htexit | ⟨f, hf, htexit⟩
    · exact .inl (hsnippets.trans htexit)
    · refine .inr ⟨f, hf, hsnippets.trans htexit, ?_⟩
      rintro tf htf rfl
      exact hno ⟨tf, htf, ⟨.entry tf.func, .threadExit⟩, by simp [hsnippets, htexit], by simp [Image.carries]⟩
  · rintro (hnil | ⟨f, -, hone, hf⟩) ⟨tf, htf, sn, hsn, hcarries⟩
    · rw [hnil] at hsn
      cases hsn
    · rw [hone, List.mem_singleton] at hsn
      rw [hsn] at hcarries
      exact hf tf htf (by simpa [Image.carries] using hcarries)

/-- A process with two functions that are traced, and `pthread_exit` in a library; `accepts` says which insertions
succeed. -/
def twoFunctions (accepts : Nat → Bool) : TracerEnv Func where
  attachOk := true
  load := goodEnv
  fs := freshFs
  pattern := "(.*)".toList
  allobjs :=
    [⟨"prog".toList, "/bin/prog".toList, [["main".toList, "work".toList]], fun _ => ["main".toList, "work".toList]⟩]
  embed := id
  img :=
    { hasEntry := fun _ => true
      hasExit := fun _ => true
      findFunction := fun pattern =>
        if pattern = symFini then [⟨0, symFini⟩] else if pattern = symPthreadExit then [⟨1, symPthreadExit⟩] else []
      object := fun f => if f.obj = 0 then "prog".toList else "libpthread.so".toList
      isSharedLib := fun f => f.obj ≠ 0
      callbackIn := fun f obj => f = ⟨0, symFini⟩ && obj = "prog".toList }
  accepts := accepts
  lib := some ⟨"libprofile.so".toList, "/home/jr/stubprofile/build/lib/libprofile.so".toList, [], fun name =>
    [symInit, symExit, symThreadExit, symCountPre, symCountPost].filter (· = name)⟩
  initRet := some 0
  continueOk := true
  terminated := false

def LibCall.isCount : LibCall → Bool
  | .pre _ => true
  | .post _ => true
  | _ => false

private theorem mem_countCalls {c : LibCall} {site : Site φ} (h : c ∈ countCalls targets site) :
    ∃ tf ∈ targets, c = .pre tf.index ∨ c = .post tf.index := by
  cases site with
  | entry f =>
    obtain ⟨tf, htf, rfl⟩ := List.mem_map.1 h
    exact ⟨tf, (List.mem_filter.1 htf).1, .inl rfl⟩
  | exit f =>
    obtain ⟨tf, htf, rfl⟩ := List.mem_map.1 h
    exact ⟨tf, (List.mem_filter.1 htf).1, .inr rfl⟩
  | init obj => cases h
  | fini obj => cases h

/-- The counting calls at a point are those of the targets, the last one first. -/
private theorem Traced.callsAt_filter (h : Traced env targets t (countSnippets env.img targets) texit fini added)
    (site : Site φ) : (callsAt t.space.snippets site).filter LibCall.isCount =
      (countCalls (targets.filter (Counted env.img)) site).reverse := by
  have hcount : (callsAt (countSnippets env.img targets).reverse site).filter LibCall.isCount =
      (countCalls (targets.filter (Counted env.img)) site).reverse := by
    rw [callsAt_reverse, callsAt_countSnippets, List.filter_eq_self]
    intro c hc
    obtain ⟨tf, -, rfl | rfl⟩ := mem_countCalls (List.mem_reverse.1 hc)
    · rfl
    · rfl
  have hend : (callsAt (texit ++ fini) site).filter LibCall.isCount = [] := by
    rw [List.filter_eq_nil_iff]
    intro c hc
    simp only [callsAt, List.mem_map, List.mem_filter, List.mem_append] at hc
    obtain ⟨sn, ⟨hsn | hsn, -⟩, rfl⟩ := hc
    · rcases h.texit_eq with rfl | ⟨f, -, rfl⟩
      · cases hsn
      · rw [List.mem_singleton.1 hsn]
        simp [LibCall.isCount]
    · obtain ⟨tf, -, rfl⟩ := h.mem_fini sn hsn
      simp [LibCall.isCount]
  rw [h.snippets_eq, callsAt_append, List.filter_append, hcount, hend, List.append_nil]

theorem execute_filter (h : Traced env targets t (countSnippets env.img targets) texit fini added)
    (trace : List (Site φ)) :
    (execute t.space.snippets trace).filter LibCall.isCount =
      trace.flatMap fun site => (countCalls (targets.filter (Counted env.img)) site).reverse := by
  rw [execute, List.filter_flatMap]
  congr
  funext site
  exact h.callsAt_filter site

theorem tracerMain_ran (h : tracerMain env = .ok (ret, .ran range snippets)) :
    ∃ targets t, tracerInit env = .ok (true, targets) ∧ tracerProcess env targets = (true, t) ∧ range = t.range ∧
      snippets = t.space.snippets := by
  unfold tracerMain at h
  split at h
  · cases h
  · cases hinit : tracerInit env with
    | error e => simp [hinit] at h
    | ok r =>
      obtain ⟨ok, targets⟩ := r
      cases ok with
      | false => simp [hinit] at h
      | true =>
        simp only [hinit] at h
        cases hprocess : tracerProcess env targets with
        | mk ok t =>
          cases ok with
          | false =>
            simp only [hprocess] at h
            split at h
            · cases h
            · split at h <;> cases h
          | true =>
            simp only [hprocess] at h
            cases h
            exact ⟨targets, t, rfl, hprocess, rfl, rfl⟩

end Left

end StubProfile.Tools
